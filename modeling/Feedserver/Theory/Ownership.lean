/-
# Theory.Ownership — programs that acquire, use and release resources

`S.owning` has the calls of `S` and three more, on resources: to acquire one, which is
answered with its place, to use one and to release one. A place may be given out again once
it has been released.

* `Tracks Q p q live`: from the resources `live` on, `p` makes the calls of `q`, uses and
  releases nothing but what it owns, and where both end, what they return and what `p` then
  owns is as `Q` says. There is one rule for each way to build a program.
* `allocating sem`: a meaning of the calls of `S`, with an allocator that gives out no place
  that is in use.
* `run_owned`: programs that release what they acquire, in any order of their turns, do what
  the programs without resources do; every use is of a live resource, and what is live belongs
  to a thread that has not come to its end.
* `run_owning`: and whatever those do, these can do.
-/
import Feedserver.Theory.Pool
import Mathlib.Data.Fintype.EquivFin

namespace Feedserver.Theory

set_option autoImplicit false

inductive MemoryCall where
  | acquire
  | use (place : Nat)
  | release (place : Nat)
deriving DecidableEq

namespace MemoryCall

def Answer : MemoryCall → Type
  | .acquire => Nat
  | _ => Unit

/-- What is used or released is live. -/
def InOrder (live : Finset Nat) : MemoryCall → Prop
  | .acquire => True
  | .use place => place ∈ live
  | .release place => place ∈ live

/-- What the allocator promises. -/
def Fresh (live : Finset Nat) : (c : MemoryCall) → c.Answer → Prop
  | .acquire, place => place ∉ live
  | _, _ => True

def after (live : Finset Nat) : (c : MemoryCall) → c.Answer → Finset Nat
  | .acquire, place => insert (show Nat from place) live
  | .use _, _ => live
  | .release place, _ => live.erase place

theorem exists_fresh (live : Finset Nat) (c : MemoryCall) : ∃ answer, c.Fresh live answer := by
  cases c with
  | acquire => exact Infinite.exists_notMem_finset live
  | use place => exact ⟨(), trivial⟩
  | release place => exact ⟨(), trivial⟩

theorem InOrder.mono {c : MemoryCall} {live live' : Finset Nat}
    (inOrder : c.InOrder live) (subset : live ⊆ live') : c.InOrder live' := by
  cases c with
  | acquire => trivial
  | use place => exact subset inOrder
  | release place => exact subset inOrder

theorem Fresh.mono {c : MemoryCall} {answer : c.Answer} {live live' : Finset Nat}
    (fresh : c.Fresh live' answer) (subset : live ⊆ live') : c.Fresh live answer := by
  cases c with
  | acquire => exact fun member => fresh (subset member)
  | use place => trivial
  | release place => trivial

end MemoryCall

def Signature.owning (S : Signature) : Signature :=
  ⟨MemoryCall ⊕ S.Call, Sum.elim MemoryCall.Answer S.Answer⟩

namespace Ownership

open Program (Semantics)

variable {S : Signature} {F α β γ δ σ : Type}

/-! ## Programs -/

/-- A value that is kept in a resource. -/
structure Held (α : Type) where
  place : Nat
  value : α

abbrev Owning (S : Signature) (F α : Type) := Program S.owning F α

def acquire (value : α) : Owning S F (Held α) :=
  .call (S := S.owning) (.inl .acquire) fun (place : Nat) => .done ⟨place, value⟩

/-- The value, of which something is looked at. -/
def read (x : Held α) : Owning S F α :=
  .call (S := S.owning) (.inl (.use x.place)) fun _ => .done x.value

def write (x : Held α) (value : α) : Owning S F (Held α) :=
  .call (S := S.owning) (.inl (.use x.place)) fun _ => .done ⟨x.place, value⟩

def release (x : Held α) : Owning S F Unit :=
  .call (S := S.owning) (.inl (.release x.place)) fun _ => .done ()

/-- A call that is not on a resource. -/
def ask (c : S.Call) : Owning S F (S.Answer c) := Program.perform (S := S.owning) (.inr c)

/-- A program that has no resources. -/
def lift : Program S F α → Owning S F α
  | .done a => .done a
  | .fault reason => .fault reason
  | .call c next => .call (S := S.owning) (.inr c) fun answer => lift (next answer)

/-- The calls that are not on resources. -/
def visible (log : List (Event S.owning)) : List (Event S) :=
  log.filterMap fun
    | ⟨.inl _, _⟩ => none
    | ⟨.inr c, answer⟩ => some ⟨c, answer⟩

@[simp] theorem visible_nil : visible ([] : List (Event S.owning)) = [] := rfl

@[simp] theorem visible_memory (c : MemoryCall) (answer : c.Answer) (log : List (Event S.owning)) :
    visible (⟨.inl c, answer⟩ :: log) = visible log := rfl

@[simp] theorem visible_ask (c : S.Call) (answer : S.Answer c) (log : List (Event S.owning)) :
    visible (⟨.inr c, answer⟩ :: log) = ⟨c, answer⟩ :: visible log := rfl

theorem visible_append (log log' : List (Event S.owning)) :
    visible (log ++ log') = visible log ++ visible log' := List.filterMap_append

def acquires : Event S.owning → List Nat
  | ⟨.inl .acquire, place⟩ => [(place : Nat)]
  | _ => []

def releases : Event S.owning → List Nat
  | ⟨.inl (.release place), _⟩ => [place]
  | _ => []

/-- Each place has been released as often as it has been given out, but for those still owned. -/
def Balanced (log : List (Event S.owning)) (own : Finset Nat) : Prop :=
  ∀ place, (log.flatMap acquires).count place =
    (log.flatMap releases).count place + if place ∈ own then 1 else 0

theorem balanced_nil : Balanced ([] : List (Event S.owning)) ∅ := fun _ => rfl

theorem Balanced.ask {log : List (Event S.owning)} {own : Finset Nat} (balanced : Balanced log own)
    (c : S.Call) (answer : S.Answer c) :
    Balanced (log ++ [(⟨.inr c, answer⟩ : Event S.owning)]) own := by
  intro place
  have before := balanced place
  rw [List.flatMap_append, List.flatMap_append]
  simpa [acquires, releases] using before

theorem count_acquired {m n place new : Nat} {own : Finset Nat} (unused : new ∉ own)
    (before : m = n + if place ∈ own then 1 else 0) :
    m + [new].count place = n + if place ∈ insert new own then 1 else 0 := by
  by_cases same : place = new
  · subst same
    rw [if_neg unused] at before
    simpa using before
  · have other : ¬ new = place := Ne.symm same
    simpa [same, other] using before

theorem count_released {m n place old : Nat} {own : Finset Nat} (owned : old ∈ own)
    (before : m = n + if place ∈ own then 1 else 0) :
    m = n + [old].count place + if place ∈ own.erase old then 1 else 0 := by
  by_cases same : place = old
  · subst same
    rw [if_pos owned] at before
    simpa using before
  · have other : ¬ old = place := Ne.symm same
    simpa [same, other] using before

theorem Balanced.memory {log : List (Event S.owning)} {own : Finset Nat}
    (balanced : Balanced log own) {c : MemoryCall} {answer : c.Answer} (inOrder : c.InOrder own)
    (fresh : c.Fresh own answer) :
    Balanced (log ++ [(⟨.inl c, answer⟩ : Event S.owning)]) (c.after own answer) := by
  intro place
  have before := balanced place
  rw [List.flatMap_append, List.flatMap_append, List.count_append, List.count_append]
  cases c with
  | acquire => exact count_acquired fresh before
  | use other => exact before
  | release other => exact count_released inOrder before

@[simp] theorem bind_bind {T : Signature} (p : Program T F α) (next : α → Program T F β)
    (later : β → Program T F γ) : (p >>= next) >>= later = p >>= fun a => next a >>= later := by
  induction p with
  | done a => rfl
  | fault reason => rfl
  | call c tail ih => exact congrArg (Program.call c) (funext ih)

/-! ## Tracks -/

def Tracks (Q : α → β → Finset Nat → Prop) : Owning S F α → Program S F β → Finset Nat → Prop
  | .done a, q, live => ∃ b, q = .done b ∧ Q a b live
  | .fault reason, q, _ => q = .fault reason
  | .call (.inl c) next, q, live => c.InOrder live ∧
      ∀ answer, c.Fresh live answer → Tracks Q (next answer) q (c.after live answer)
  | .call (.inr c) next, q, live =>
      ∃ next', q = .call c next' ∧ ∀ answer, Tracks Q (next answer) (next' answer) live

variable {Q : α → β → Finset Nat → Prop} {R : γ → δ → Finset Nat → Prop} {live : Finset Nat}

@[simp] theorem tracks_done_iff {a : α} {b : β} :
    Tracks Q (.done a : Owning S F α) (.done b) live ↔ Q a b live := by
  constructor
  · rintro ⟨_, ⟨⟩, holds⟩
    exact holds
  · exact fun holds => ⟨b, rfl, holds⟩

@[simp] theorem tracks_fault_iff {reason : F} {q : Program S F β} :
    Tracks Q (.fault reason : Owning S F α) q live ↔ q = .fault reason := Iff.rfl

theorem Tracks.bind {p : Owning S F α} {q : Program S F β} {next : α → Owning S F γ}
    {next' : β → Program S F δ} (first : Tracks Q p q live)
    (rest : ∀ a b left, Q a b left → Tracks R (next a) (next' b) left) :
    Tracks R (p >>= next) (q >>= next') live := by
  induction p generalizing q live with
  | done a =>
      obtain ⟨b, rfl, holds⟩ := first
      exact rest a b live holds
  | fault reason =>
      obtain rfl := first
      rfl
  | call c tail ih =>
      cases c with
      | inl c => exact ⟨first.1, fun answer fresh => ih answer (first.2 answer fresh)⟩
      | inr c =>
          obtain ⟨tail', rfl, later⟩ := first
          exact ⟨fun answer => tail' answer >>= next', rfl, fun answer => ih answer (later answer)⟩

theorem Tracks.mono {Q' : α → β → Finset Nat → Prop} {p : Owning S F α} {q : Program S F β}
    (tracks : Tracks Q p q live) (imp : ∀ a b left, Q a b left → Q' a b left) :
    Tracks Q' p q live := by
  induction p generalizing q live with
  | done a =>
      obtain ⟨b, rfl, holds⟩ := tracks
      exact ⟨b, rfl, imp a b live holds⟩
  | fault reason => exact tracks
  | call c next ih =>
      cases c with
      | inl c => exact ⟨tracks.1, fun answer fresh => ih answer (tracks.2 answer fresh)⟩
      | inr c =>
          obtain ⟨next', rfl, later⟩ := tracks
          exact ⟨next', rfl, fun answer => ih answer (later answer)⟩

/-- A first part that makes no call comes before everything. -/
theorem Tracks.done_bind {p : Owning S F α} {b : β} {next : α → Owning S F γ} {q : Program S F δ}
    (first : Tracks Q p (.done b) live)
    (rest : ∀ a left, Q a b left → Tracks R (next a) q left) : Tracks R (p >>= next) q live := by
  induction p generalizing live with
  | done a =>
      obtain ⟨b, ⟨⟩, holds⟩ := first
      exact rest a live holds
  | fault reason => cases first
  | call c tail ih =>
      cases c with
      | inl c => exact ⟨first.1, fun answer fresh => ih answer (first.2 answer fresh)⟩
      | inr c => obtain ⟨next', ⟨⟩, -⟩ := first

theorem Tracks.fault_bind {p : Owning S F α} {reason : F} {next : α → Owning S F γ}
    (first : Tracks Q p (.fault reason) live) :
    Tracks R (p >>= next) (.fault reason) live := by
  induction p generalizing live with
  | done a => obtain ⟨b, ⟨⟩, -⟩ := first
  | fault other =>
      cases first
      rfl
  | call c tail ih =>
      cases c with
      | inl c => exact ⟨first.1, fun answer fresh => ih answer (first.2 answer fresh)⟩
      | inr c => obtain ⟨next', ⟨⟩, -⟩ := first

/-- One that makes no call either, and may come to a fault. -/
theorem Tracks.ofExcept_bind {p : Owning S F α} {e : Except F β} {next : α → Owning S F γ}
    {q : Program S F δ} (first : Tracks Q p (.ofExcept e) live)
    (faults : ∀ reason, e = .error reason → q = .fault reason)
    (rest : ∀ a b left, e = .ok b → Q a b left → Tracks R (next a) q left) :
    Tracks R (p >>= next) q live := by
  cases e with
  | error reason =>
      rw [faults reason rfl]
      exact first.fault_bind
  | ok b => exact first.done_bind fun a left holds => rest a b left rfl holds

section Rules

variable {x : Held α} {q : Program S F δ}

@[simp] theorem tracks_acquire_bind {value : α} {next : Held α → Owning S F γ} :
    Tracks R (acquire value >>= next) q live ↔
      ∀ place, place ∉ live → Tracks R (next ⟨place, value⟩) q (insert place live) := by
  constructor
  · exact fun tracks place fresh => tracks.2 place fresh
  · exact fun tracks => ⟨trivial, tracks⟩

@[simp] theorem tracks_read_bind {next : α → Owning S F γ} :
    Tracks R (read x >>= next) q live ↔ x.place ∈ live ∧ Tracks R (next x.value) q live := by
  constructor
  · exact fun tracks => ⟨tracks.1, tracks.2 () trivial⟩
  · exact fun tracks => ⟨tracks.1, fun _ _ => tracks.2⟩

@[simp] theorem tracks_write_bind {value : α} {next : Held α → Owning S F γ} :
    Tracks R (write x value >>= next) q live ↔
      x.place ∈ live ∧ Tracks R (next ⟨x.place, value⟩) q live := by
  constructor
  · exact fun tracks => ⟨tracks.1, tracks.2 () trivial⟩
  · exact fun tracks => ⟨tracks.1, fun _ _ => tracks.2⟩

@[simp] theorem tracks_release_bind {next : Unit → Owning S F γ} :
    Tracks R (release x >>= next) q live ↔
      x.place ∈ live ∧ Tracks R (next ()) q (live.erase x.place) := by
  constructor
  · exact fun tracks => ⟨tracks.1, tracks.2 () trivial⟩
  · exact fun tracks => ⟨tracks.1, fun _ _ => tracks.2⟩

@[simp] theorem tracks_ask_bind {c : S.Call} {next : S.Answer c → Owning S F γ}
    {next' : S.Answer c → Program S F δ} :
    Tracks R (ask c >>= next) (.call c next') live ↔
      ∀ answer, Tracks R (next answer) (next' answer) live := by
  constructor
  · rintro ⟨_, ⟨⟩, later⟩
    exact later
  · exact fun later => ⟨next', rfl, later⟩

end Rules

/-- The same is returned, and as much is live as before. -/
def Keeps (live : Finset Nat) (a b : α) (left : Finset Nat) : Prop := a = b ∧ left = live

theorem tracks_lift (p : Program S F α) : Tracks (Keeps live) (lift p) p live := by
  induction p with
  | done a => exact ⟨a, rfl, rfl, rfl⟩
  | fault reason => rfl
  | call c next ih => exact ⟨next, rfl, ih⟩

/-! ## Shares -/

/-- Each thread has its share of what is live. -/
structure Shares (live : Finset Nat) (count : Nat) (share : Nat → Finset Nat) : Prop where
  apart : ∀ {i j place}, place ∈ share i → place ∈ share j → i = j
  mem_iff : ∀ place, place ∈ live ↔ ∃ i, place ∈ share i
  inside : ∀ {i place}, place ∈ share i → i < count

section Shares

variable {count : Nat} {share : Nat → Finset Nat}

theorem shares_none (count : Nat) : Shares ∅ count fun _ => ∅ where
  apart := nofun
  mem_iff := by simp
  inside := nofun

theorem Shares.subset (shares : Shares live count share) (i : Nat) : share i ⊆ live :=
  fun place member => (shares.mem_iff place).2 ⟨i, member⟩

/-- A place that is new belongs to the thread that has acquired it. -/
theorem Shares.acquire (shares : Shares live count share) {i place : Nat} (inside : i < count)
    (fresh : place ∉ live) :
    Shares (insert place live) count (Function.update share i (insert place (share i))) := by
  have nobody (j : Nat) : place ∉ share j := fun member => fresh (shares.subset j member)
  have mem (j place' : Nat) : place' ∈ Function.update share i (insert place (share i)) j ↔
      (j = i ∧ place' = place) ∨ place' ∈ share j := by
    by_cases same : j = i
    · subst same
      simp
    · simp [same]
  refine ⟨?_, ?_, ?_⟩
  · intro j k place' here there
    rcases (mem j place').1 here with ⟨same, rfl⟩ | old
    · rcases (mem k place').1 there with ⟨same', -⟩ | old'
      · exact same.trans same'.symm
      · exact absurd old' (nobody k)
    · rcases (mem k place').1 there with ⟨-, rfl⟩ | old'
      · exact absurd old (nobody j)
      · exact shares.apart old old'
  · intro place'
    simp only [mem, Finset.mem_insert, shares.mem_iff]
    constructor
    · rintro (rfl | ⟨j, member⟩)
      · exact ⟨i, .inl ⟨rfl, rfl⟩⟩
      · exact ⟨j, .inr member⟩
    · rintro ⟨j, ⟨rfl, rfl⟩ | member⟩
      · exact .inl rfl
      · exact .inr ⟨j, member⟩
  · intro j place' member
    rcases (mem j place').1 member with ⟨rfl, -⟩ | member
    · exact inside
    · exact shares.inside member

/-- A place that is released was only its owner's. -/
theorem Shares.release (shares : Shares live count share) {i place : Nat}
    (owned : place ∈ share i) :
    Shares (live.erase place) count (Function.update share i ((share i).erase place)) := by
  have mem (j place' : Nat) : place' ∈ Function.update share i ((share i).erase place) j ↔
      place' ≠ place ∧ place' ∈ share j := by
    by_cases same : j = i
    · subst same
      simp
    · simp only [Function.update_of_ne same]
      refine (and_iff_right_of_imp fun member => ?_).symm
      rintro rfl
      exact same (shares.apart member owned)
  refine ⟨?_, ?_, ?_⟩
  · intro j k place' here there
    exact shares.apart ((mem j place').1 here).2 ((mem k place').1 there).2
  · intro place'
    simp only [mem, Finset.mem_erase, shares.mem_iff]
    exact ⟨fun ⟨other, j, member⟩ => ⟨j, other, member⟩,
      fun ⟨j, other, member⟩ => ⟨other, j, member⟩⟩
  · intro j place' member
    exact shares.inside ((mem j place').1 member).2

/-- Any call on a resource that is in order. -/
theorem Shares.after (shares : Shares live count share) {i : Nat} (inside : i < count)
    {c : MemoryCall} {answer : c.Answer} (inOrder : c.InOrder (share i))
    (fresh : c.Fresh live answer) :
    Shares (c.after live answer) count (Function.update share i (c.after (share i) answer)) := by
  cases c with
  | acquire => exact shares.acquire inside fresh
  | use place =>
      show Shares live count (Function.update share i (share i))
      rwa [Function.update_eq_self]
  | release place => exact shares.release inOrder

end Shares

/-! ## Runs -/

/-- The calls of `S` as they are, and an allocator that gives out no place in use. -/
def allocating (sem : Semantics S σ) : Semantics S.owning (Finset Nat × σ)
  | .inl c, before, answer, after =>
      c.Fresh before.1 answer ∧ after = (c.after before.1 answer, before.2)
  | .inr c, before, answer, after => after.1 = before.1 ∧ sem c before.2 answer after.2

open Pool (Run launch anyStep)

/-- A thread that owns resources does what another does that has none, from what it owns on. -/
structure Twin (thread : Thread S.owning F α) (thread' : Thread S F α) (own : Finset Nat) :
    Prop where
  log : thread'.log = visible thread.log
  balanced : Balanced thread.log own
  tracks : Tracks (Keeps ∅) thread.program thread'.program own

section Twin

variable {own : Finset Nat} {log : List (Event S.owning)} {log' : List (Event S)}

theorem Twin.memory {thread' : Thread S F α} {c : MemoryCall} {next : c.Answer → Owning S F α}
    {answer : c.Answer} (twin : Twin ⟨.call (S := S.owning) (.inl c) next, log⟩ thread' own)
    (fresh : c.Fresh own answer) :
    Twin ⟨next answer, log ++ [⟨.inl c, answer⟩]⟩ thread' (c.after own answer) where
  log := by
    rw [visible_append]
    exact twin.log.trans (List.append_nil _).symm
  balanced := twin.balanced.memory twin.tracks.1 fresh
  tracks := twin.tracks.2 answer fresh

theorem Twin.ask {thread' : Thread S F α} {c : S.Call} {next : S.Answer c → Owning S F α}
    (twin : Twin ⟨.call (S := S.owning) (.inr c) next, log⟩ thread' own) (answer : S.Answer c) :
    ∃ next' log', thread' = ⟨.call c next', log'⟩ ∧
      Twin ⟨next answer, log ++ [⟨.inr c, answer⟩]⟩ ⟨next' answer, log' ++ [⟨c, answer⟩]⟩ own := by
  obtain ⟨q, log'⟩ := thread'
  obtain ⟨logged, balanced, next', rfl, later⟩ := twin
  refine ⟨next', log', rfl, ?_, balanced.ask c answer, later answer⟩
  rw [visible_append]
  exact congrArg (· ++ [_]) logged

/-- Nothing is owned at the end. -/
theorem Twin.empty_of_done {thread : Thread S.owning F α} {thread' : Thread S F α}
    (twin : Twin thread thread' own) {a : α} (ended : thread.program = .done a) : own = ∅ := by
  have tracks := twin.tracks
  rw [ended] at tracks
  obtain ⟨b, -, -, none⟩ := tracks
  exact none

/-- Both come to the same end. -/
theorem Twin.outcome {thread' : Thread S F α} {outcome : Except F α}
    (twin : Twin ⟨.ofExcept outcome, log⟩ thread' own) :
    thread' = ⟨.ofExcept outcome, visible log⟩ := by
  obtain ⟨q, log'⟩ := thread'
  obtain ⟨rfl, -, tracks⟩ := twin
  cases outcome with
  | ok a =>
      obtain ⟨b, rfl, rfl, -⟩ := tracks
      rfl
  | error reason =>
      obtain rfl := tracks
      rfl

/-- And back, if the first has no call on a resource left. -/
theorem Twin.outcome_of_settled {thread : Thread S.owning F α} {outcome : Except F α}
    (twin : Twin thread ⟨.ofExcept outcome, log'⟩ own)
    (settled : ∀ c, thread.program.pending ≠ some (.inl c)) :
    thread.program = .ofExcept outcome := by
  obtain ⟨p, log⟩ := thread
  have tracks := twin.tracks
  cases p with
  | done a =>
      obtain ⟨b, same, rfl, -⟩ := tracks
      cases outcome with
      | ok value => cases same; rfl
      | error reason => cases same
  | fault reason =>
      have same : Program.ofExcept outcome = .fault reason := tracks
      cases outcome with
      | ok value => cases same
      | error other => cases same; rfl
  | call c next =>
      cases c with
      | inl c => exact absurd rfl (settled c)
      | inr c =>
          obtain ⟨next', same, -⟩ := tracks
          cases outcome with
          | ok value => cases same
          | error reason => cases same

end Twin

/-- Every thread of the first pool has its twin in the second, and its share of what is live. -/
structure Paired (pool : List (Thread S.owning F α)) (pool' : List (Thread S F α))
    (live : Finset Nat) (share : Nat → Finset Nat) : Prop where
  length : pool'.length = pool.length
  shares : Shares live pool.length share
  twin : ∀ {i thread}, pool[i]? = some thread →
    ∃ thread', pool'[i]? = some thread' ∧ Twin thread thread' (share i)

section Runs

variable {sem : Semantics S σ} {programs : List (Owning S F α)} {programs' : List (Program S F α)}
  {pool : List (Thread S.owning F α)} {pool' : List (Thread S F α)} {share : Nat → Finset Nat}
  {s s₀ : σ}

theorem paired_launch
    (tracked : List.Forall₂ (fun p q => Tracks (Keeps ∅) p q ∅) programs programs') :
    Paired (launch programs) (launch programs') ∅ fun _ => ∅ where
  length := by simp [launch, tracked.length_eq]
  shares := shares_none _
  twin := by
    intro i thread found
    simp only [launch, List.getElem?_map, Option.map_eq_some_iff] at found ⊢
    obtain ⟨p, programAt, rfl⟩ := found
    obtain ⟨inside, rfl⟩ := List.getElem?_eq_some_iff.1 programAt
    have inside' : i < programs'.length := tracked.length_eq ▸ inside
    exact ⟨_, ⟨_, List.getElem?_eq_getElem inside', rfl⟩, rfl, balanced_nil,
      tracked.get inside inside'⟩

/-- The thread at one index has done something, and its share has changed. -/
theorem Paired.set (paired : Paired pool pool' live share) {i : Nat}
    {live' own : Finset Nat} (shares : Shares live' pool.length (Function.update share i own))
    (inside : i < pool.length) {stepped : Thread S.owning F α} {stepped' : Thread S F α}
    (twin : Twin stepped stepped' own) :
    Paired (pool.set i stepped) (pool'.set i stepped') live' (Function.update share i own) where
  length := by simp [paired.length]
  shares := by rwa [List.length_set]
  twin := by
    intro j thread found
    rcases Pool.getElem?_set_cases found with ⟨rfl, rfl, -⟩ | ⟨other, found⟩
    · rw [Function.update_self]
      exact ⟨stepped', List.getElem?_set_self (paired.length ▸ inside), twin⟩
    · rw [Function.update_of_ne other, List.getElem?_set_ne (Ne.symm other)]
      exact paired.twin found

/-- A call on a resource: the other pool stays as it is. -/
theorem Paired.memory (paired : Paired pool pool' live share) {i : Nat} {c : MemoryCall}
    {next : c.Answer → Owning S F α} {log : List (Event S.owning)} {answer : c.Answer}
    (turn : pool[i]? = some ⟨.call (S := S.owning) (.inl c) next, log⟩)
    (fresh : c.Fresh live answer) :
    Paired (pool.set i ⟨next answer, log ++ [⟨.inl c, answer⟩]⟩) pool' (c.after live answer)
      (Function.update share i (c.after (share i) answer)) := by
  have inside := (List.getElem?_eq_some_iff.1 turn).1
  obtain ⟨thread', found, twin⟩ := paired.twin turn
  have same : pool'.set i thread' = pool' := by
    obtain ⟨inside', here⟩ := List.getElem?_eq_some_iff.1 found
    rw [← here]
    exact List.set_getElem_self inside'
  have stepped := paired.set (paired.shares.after inside twin.tracks.1 fresh) inside
    (twin.memory (MemoryCall.Fresh.mono fresh (paired.shares.subset i)))
  rwa [same] at stepped

/-- Any other call is made in both. -/
theorem Paired.ask (paired : Paired pool pool' live share) {i : Nat} {c : S.Call}
    {next : S.Answer c → Owning S F α} {log : List (Event S.owning)}
    (turn : pool[i]? = some ⟨.call (S := S.owning) (.inr c) next, log⟩) (answer : S.Answer c) :
    ∃ next' log', pool'[i]? = some ⟨.call c next', log'⟩ ∧
      Paired (pool.set i ⟨next answer, log ++ [⟨.inr c, answer⟩]⟩)
        (pool'.set i ⟨next' answer, log' ++ [⟨c, answer⟩]⟩) live share := by
  have inside := (List.getElem?_eq_some_iff.1 turn).1
  obtain ⟨thread', found, twin⟩ := paired.twin turn
  obtain ⟨next', log', rfl, twin'⟩ := twin.ask answer
  have shares : Shares live pool.length (Function.update share i (share i)) := by
    rw [Function.update_eq_self]
    exact paired.shares
  have stepped := paired.set shares inside twin'
  rw [Function.update_eq_self] at stepped
  exact ⟨next', log', found, stepped⟩

/-- **Programs that release what they acquire.** In any order of their turns they do what the
programs without resources do, each thread from its share of what is live. -/
theorem run_owned
    (tracked : List.Forall₂ (fun p q => Tracks (Keeps ∅) p q ∅) programs programs')
    (run : Run (allocating sem) anyStep (launch programs) (∅, s₀) pool (live, s)) :
    ∃ pool' share, Run sem anyStep (launch programs') s₀ pool' s ∧
      Paired pool pool' live share := by
  refine run.invariant (I := fun pool after => ∃ pool' share,
    Run sem anyStep (launch programs') s₀ pool' after.2 ∧ Paired pool pool' after.1 share)
    ⟨_, _, .start, paired_launch tracked⟩ ?_
  rintro pool ⟨live, s⟩ ⟨live', s'⟩ i c next log answer ⟨pool', share, reached, paired⟩ turn - made
  cases c with
  | inl c =>
      obtain ⟨fresh, same⟩ := made
      cases same
      exact ⟨pool', _, reached, paired.memory turn fresh⟩
  | inr c =>
      obtain ⟨same, made⟩ := made
      cases same
      obtain ⟨next', log', found, stepped⟩ := paired.ask turn answer
      exact ⟨_, _, reached.step found trivial made, stepped⟩

/-- What is used or released next is live. -/
theorem Paired.inOrder (paired : Paired pool pool' live share) {i : Nat} {c : MemoryCall}
    {next : c.Answer → Owning S F α} {log : List (Event S.owning)}
    (turn : pool[i]? = some ⟨.call (S := S.owning) (.inl c) next, log⟩) : c.InOrder live := by
  obtain ⟨thread', -, twin⟩ := paired.twin turn
  exact MemoryCall.InOrder.mono twin.tracks.1 (paired.shares.subset i)

/-- What is live is owned by a thread that has not come to its end. -/
theorem Paired.owner (paired : Paired pool pool' live share) {place : Nat} (member : place ∈ live) :
    ∃ (i : Nat) (thread : Thread S.owning F α), pool[i]? = some thread ∧
      ∀ a, thread.program ≠ .done a := by
  obtain ⟨i, owned⟩ := (paired.shares.mem_iff place).1 member
  have found := List.getElem?_eq_getElem (paired.shares.inside owned)
  refine ⟨i, _, found, ?_⟩
  intro a ended
  obtain ⟨thread', -, twin⟩ := paired.twin found
  rw [twin.empty_of_done ended] at owned
  exact absurd owned (Finset.notMem_empty place)

/-- The thread at an index waits for no call on a resource. -/
def Settled (pool : List (Thread S.owning F α)) (i : Nat) : Prop :=
  ∀ thread c, pool[i]? = some thread → thread.program.pending ≠ some (.inl c)

theorem settled_of_pending {i : Nat} {p : Owning S F α} {log : List (Event S.owning)}
    (found : pool[i]? = some ⟨p, log⟩) (waits : ∀ c, p.pending ≠ some (.inl c)) :
    Settled pool i := by
  intro thread c here
  rw [found] at here
  cases here
  exact waits c

/-- A thread goes on to its next call that is not on a resource. -/
theorem Paired.settle (paired : Paired pool pool' live share)
    (reached : Run (allocating sem) anyStep (launch programs) (∅, s₀) pool (live, s)) {i : Nat}
    {p : Owning S F α} {log : List (Event S.owning)} (found : pool[i]? = some ⟨p, log⟩) :
    ∃ pool₁ live₁ share₁,
      Run (allocating sem) anyStep (launch programs) (∅, s₀) pool₁ (live₁, s) ∧
        Paired pool₁ pool' live₁ share₁ ∧ (∀ j, j ≠ i → pool₁[j]? = pool[j]?) ∧
          Settled pool₁ i := by
  induction p generalizing pool live share log with
  | done a =>
      exact ⟨pool, live, share, reached, paired, fun _ _ => rfl, settled_of_pending found nofun⟩
  | fault reason =>
      exact ⟨pool, live, share, reached, paired, fun _ _ => rfl, settled_of_pending found nofun⟩
  | call c next ih =>
      cases c with
      | inr c =>
          exact ⟨pool, live, share, reached, paired, fun _ _ => rfl,
            settled_of_pending found nofun⟩
      | inl c =>
          obtain ⟨answer, fresh⟩ := MemoryCall.exists_fresh live c
          have inside := (List.getElem?_eq_some_iff.1 found).1
          obtain ⟨pool₁, live₁, share₁, reached₁, paired₁, others, settled⟩ :=
            ih answer (paired.memory found fresh)
              (reached.step found trivial ⟨fresh, rfl⟩) (List.getElem?_set_self inside)
          refine ⟨pool₁, live₁, share₁, reached₁, paired₁, ?_, settled⟩
          intro j other
          rw [others j other, List.getElem?_set_ne (Ne.symm other)]

/-- So do all threads, one after another. -/
theorem Paired.settle_all (paired : Paired pool pool' live share)
    (reached : Run (allocating sem) anyStep (launch programs) (∅, s₀) pool (live, s)) :
    ∃ pool₁ live₁ share₁,
      Run (allocating sem) anyStep (launch programs) (∅, s₀) pool₁ (live₁, s) ∧
        Paired pool₁ pool' live₁ share₁ ∧ ∀ i, Settled pool₁ i := by
  have first (n : Nat) : ∃ pool₁ live₁ share₁,
      Run (allocating sem) anyStep (launch programs) (∅, s₀) pool₁ (live₁, s) ∧
        Paired pool₁ pool' live₁ share₁ ∧ ∀ i, i < n → Settled pool₁ i := by
    induction n with
    | zero => exact ⟨pool, live, share, reached, paired, nofun⟩
    | succ n ih =>
        obtain ⟨pool₁, live₁, share₁, reached₁, paired₁, settled⟩ := ih
        cases found : pool₁[n]? with
        | none =>
            refine ⟨pool₁, live₁, share₁, reached₁, paired₁, ?_⟩
            intro i less thread c here
            rcases Nat.lt_succ_iff_lt_or_eq.1 less with less | rfl
            · exact settled i less thread c here
            · rw [found] at here
              cases here
        | some thread =>
            obtain ⟨pool₂, live₂, share₂, reached₂, paired₂, others, now⟩ :=
              paired₁.settle reached₁ found
            refine ⟨pool₂, live₂, share₂, reached₂, paired₂, ?_⟩
            intro i less
            rcases Nat.lt_succ_iff_lt_or_eq.1 less with less | rfl
            · intro thread c here
              rw [others i (Nat.ne_of_lt less)] at here
              exact settled i less thread c here
            · exact now
  obtain ⟨pool₁, live₁, share₁, reached₁, paired₁, settled⟩ := first pool'.length
  refine ⟨pool₁, live₁, share₁, reached₁, paired₁, ?_⟩
  intro i thread c here
  exact settled i (paired₁.length ▸ (List.getElem?_eq_some_iff.1 here).1) thread c here

/-- **And the other way round.** What the programs without resources do, these can do, with
nothing left to do for a thread but what the other has left to do. -/
theorem run_owning
    (tracked : List.Forall₂ (fun p q => Tracks (Keeps ∅) p q ∅) programs programs')
    (run : Run sem anyStep (launch programs') s₀ pool' s) :
    ∃ pool live share, Run (allocating sem) anyStep (launch programs) (∅, s₀) pool (live, s) ∧
      Paired pool pool' live share ∧ ∀ i, Settled pool i := by
  refine run.invariant (I := fun pool' s => ∃ pool live share,
    Run (allocating sem) anyStep (launch programs) (∅, s₀) pool (live, s) ∧
      Paired pool pool' live share ∧ ∀ i, Settled pool i) ?_ ?_
  · exact (paired_launch tracked).settle_all .start
  · rintro pool' s s' i c next' log answer ⟨pool, live, share, reached, paired, settled⟩ turn - made
    have inside : i < pool.length := paired.length ▸ (List.getElem?_eq_some_iff.1 turn).1
    obtain ⟨⟨p, log'⟩, found⟩ : ∃ thread, pool[i]? = some thread :=
      ⟨_, List.getElem?_eq_getElem inside⟩
    obtain ⟨thread', found', twin⟩ := paired.twin found
    rw [turn] at found'
    cases found'
    cases p with
    | done a => obtain ⟨b, ⟨⟩, -⟩ := twin.tracks
    | fault reason => cases twin.tracks
    | call c' next =>
        cases c' with
        | inl c' => exact absurd rfl (settled i _ c' found)
        | inr c' =>
            obtain ⟨_, ⟨⟩, -⟩ := twin.tracks
            obtain ⟨next'', log'', here, stepped⟩ := paired.ask found answer
            rw [turn] at here
            cases here
            exact stepped.settle_all (reached.step found trivial ⟨rfl, made⟩)

end Runs

end Ownership

end Feedserver.Theory
