/-
# Memory.Serving — the server with its memory

The threads of `Serving.Runs` with what their handlers allocate, on one allocator. Nothing is
known of the databases but that they answer.

* `memory_in_order`: in any order of the threads' turns, what is used or freed is live; a
  request that has been answered has freed whatever it allocated, each once; and when all have
  been answered, nothing is left.
* `same_runs`: but for that, this server and the one of `Serving.Runs` do the same.
-/
import Feedserver.Memory.FeedServer
import Feedserver.Serving.Requests

namespace Feedserver.Memory

open Feedserver.Theory
open Ownership (Tracks Keeps Twin allocating acquires releases visible)
open Pool (Run anyStep)
open Serving (Request)
open Source (Fault HttpResponse calls)

set_option autoImplicit false

abbrev Threads := List (Thread calls.owning Fault HttpResponse)

def handlers (json : Json.Parser) (requests : List Request) : List (Owned HttpResponse) :=
  requests.map fun request => handle json request.1 request.2

/-- One thread for each request, none of which has begun. -/
def serve (json : Json.Parser) (requests : List Request) : Threads :=
  Pool.launch (handlers json requests)

section Runs

variable {σ : Type} {sem : Program.Semantics calls σ} {json : Json.Parser}
  {requests : List Request} {pool : Threads} {live : Finset Nat} {s₀ s : σ}

theorem handlers_tracked (json : Json.Parser) (requests : List Request) :
    List.Forall₂ (fun p q => Tracks (Keeps ∅) p q ∅) (handlers json requests)
      (Serving.handlers json requests) := by
  induction requests with
  | nil => exact .nil
  | cons request rest ih => exact .cons (handle_tracks json request.1 request.2) ih

/-- **Memory.** Whatever the databases answer, and in any order of the turns: a resource that is
used or freed is live then. A request that has been answered has freed each resource as often as
it was given it, and when all have been answered nothing is live. -/
theorem memory_in_order
    (run : Run (allocating sem) anyStep (serve json requests) (∅, s₀) pool (live, s)) :
    (∀ (i : Nat) (thread : Thread calls.owning Fault HttpResponse) (c : MemoryCall),
      pool[i]? = some thread → thread.program.pending = some (.inl c) → c.InOrder live) ∧
      (∀ thread ∈ pool, ∀ res, thread.program = .done res → ∀ place,
        (thread.log.flatMap acquires).count place = (thread.log.flatMap releases).count place) ∧
      ((∀ thread ∈ pool, ∃ res, thread.program = .done res) → live = ∅) := by
  obtain ⟨pool', share, -, paired⟩ := Ownership.run_owned (handlers_tracked json requests) run
  refine ⟨?_, ?_, ?_⟩
  · rintro i ⟨p, log⟩ c found waits
    obtain ⟨next, rfl⟩ := Program.call_of_pending waits
    exact paired.inOrder found
  · rintro thread member res answered place
    obtain ⟨i, found⟩ := List.mem_iff_getElem?.1 member
    obtain ⟨thread', -, twin⟩ := paired.twin found
    have balanced := twin.balanced place
    rw [twin.empty_of_done answered] at balanced
    simpa using balanced
  · intro answered
    refine Finset.eq_empty_of_forall_notMem fun place member => ?_
    obtain ⟨i, thread, found, unfinished⟩ := paired.owner member
    obtain ⟨res, done⟩ := answered thread (List.mem_of_getElem? found)
    exact unfinished res done

/-- **The same server.** A run of one is a run of the other: each thread that has come to its end
has made the same calls, but for those on resources, and has the same outcome. -/
theorem same_runs :
    (∀ pool live s, Run (allocating sem) anyStep (serve json requests) (∅, s₀) pool (live, s) →
      ∃ pool', Run sem anyStep (Serving.serve json requests) s₀ pool' s ∧
        ∀ (i : Nat) (outcome : Except Fault HttpResponse) (log : List (Event calls.owning)),
          pool[i]? = some ⟨.ofExcept outcome, log⟩ →
            pool'[i]? = some ⟨.ofExcept outcome, visible log⟩) ∧
      (∀ pool' s, Run sem anyStep (Serving.serve json requests) s₀ pool' s →
        ∃ pool live, Run (allocating sem) anyStep (serve json requests) (∅, s₀) pool (live, s) ∧
          ∀ (i : Nat) (outcome : Except Fault HttpResponse) (log : List (Event calls)),
            pool'[i]? = some ⟨.ofExcept outcome, log⟩ →
              ∃ log', pool[i]? = some ⟨.ofExcept outcome, log'⟩ ∧ visible log' = log) := by
  constructor
  · intro pool live s run
    obtain ⟨pool', share, run', paired⟩ :=
      Ownership.run_owned (handlers_tracked json requests) run
    refine ⟨pool', run', ?_⟩
    intro i outcome log found
    obtain ⟨thread', found', twin⟩ := paired.twin found
    rw [found', twin.outcome]
  · intro pool' s run
    obtain ⟨pool, live, share, run', paired, settled⟩ :=
      Ownership.run_owning (handlers_tracked json requests) run
    refine ⟨pool, live, run', ?_⟩
    intro i outcome log found
    have inside : i < pool.length := paired.length ▸ (List.getElem?_eq_some_iff.1 found).1
    obtain ⟨⟨p, log'⟩, here⟩ : ∃ thread, pool[i]? = some thread :=
      ⟨_, List.getElem?_eq_getElem inside⟩
    obtain ⟨thread', found', twin⟩ := paired.twin here
    rw [found] at found'
    cases found'
    obtain rfl := twin.outcome_of_settled fun c => settled i _ c here
    exact ⟨log', here, twin.log.symm⟩

end Runs

/-- A subscription, a submission and a listing. -/
def threeRequests : List Request :=
  [Serving.plainSubscribe, Serving.plainSubmission, (.userArticles, Serving.askArticles)]

def threeTurns : List Nat := [0, 1, 0, 0, 1, 2, 2, 2, 2, 2, 2, 2]

theorem threeRequests_answered : ((Serving.played threeRequests threeTurns).1.all fun thread =>
    match thread.program with
    | .done _ => true
    | _ => false) = true := by decide +kernel

theorem memory_in_order_answered : ∃ (pool : Threads) (live : Finset Nat) (w : Source.World),
    Run (allocating Serving.succeeding) anyStep (serve Json.reader threeRequests)
      (∅, .empty) pool (live, w) ∧
      (∀ thread ∈ pool, ∃ res, thread.program = .done res) ∧ live = ∅ := by
  obtain ⟨pool, live, share, run, paired, settled⟩ :=
    Ownership.run_owning (handlers_tracked Json.reader threeRequests)
      (Serving.played_succeeding threeRequests threeTurns)
  have answered : ∀ thread ∈ pool, ∃ res, thread.program = .done res := by
    intro thread member
    obtain ⟨i, found⟩ := List.mem_iff_getElem?.1 member
    obtain ⟨⟨p, log⟩, found', twin⟩ := paired.twin found
    have past := List.all_eq_true.1 threeRequests_answered _ (List.mem_of_getElem? found')
    cases p with
    | done res =>
        have twin' : Twin thread ⟨.ofExcept (.ok res), log⟩ (share i) := twin
        exact ⟨res, twin'.outcome_of_settled fun c => settled i thread c found⟩
    | fault reason => cases past
    | call c next => cases past
  exact ⟨pool, live, _, run, answered, (memory_in_order run).2.2 answered⟩

end Feedserver.Memory
