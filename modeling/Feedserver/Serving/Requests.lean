/-
# Serving.Requests — requests as a client writes them, and databases that never fail

The builders put a path and a name where the request line has them. `succeeding` is the
meaning of the calls when every database call succeeds; `succeed` answers them, so a run
of it can be computed (`played`, `Program.exec`).
-/
import Feedserver.Records.Names
import Feedserver.Serving.Runs

namespace Feedserver.Serving

open Feedserver.Theory
open Feedserver.Source
open Feedserver.Records

set_option autoImplicit false

def putJson (body : String) : HttpRequest :=
  ⟨.put, lit "/subscribeuser HTTP/1.1", 14, ascii body, false⟩

def postFeed (feed body : String) : HttpRequest :=
  ⟨.post, lit ("/feed/" ++ feed ++ " HTTP/1.1"), 6 + feed.utf8ByteSize, ascii body, false⟩

def getPath (path user : String) : HttpRequest :=
  ⟨.get, lit (path ++ user ++ " HTTP/1.1"), path.utf8ByteSize + user.utf8ByteSize, [], false⟩

/-- Two feeds for the user `u`. -/
def plainSubscribe : Request := (.subscribe, putJson "\x7b\"user\":\"u\",\"feeds\":[\"a\",\"b\"]\x7d")

/-- What that is read as, and stored as. -/
def plainPair : UfPair := ⟨lit "u", [lit "a", lit "b"]⟩

theorem read_plainSubscribe :
    ufPairFromRequest Json.reader plainSubscribe.2.body = .ok (some plainPair) := by decide +kernel

theorem read_plainPair :
    ufPairFromDbvalue Json.reader (dbText plainPair) = .ok (some plainPair) := by decide +kernel

/-- The content `x`, submitted to the feed `a`. -/
def plainSubmission : Request :=
  (.submit, postFeed "a" "\x7b\"articles\":[\x7b\"content\":\"x\"\x7d]\x7d")

/-- A request for the articles of the user `u`. -/
def askArticles : HttpRequest := getPath "/userarticles/" "u"

theorem locates_askArticles : Locates askArticles (lit "u") :=
  ⟨by decide, ascii "userarticles", ascii "HTTP/1.1", by decide +kernel, by decide, by decide⟩

/-- The databases answer every call, and successfully. -/
def succeeding : Program.Semantics calls World := fun c w a w' => (a, w') = succeed c w

theorem succeeding_succeed (c : Call) (w : World) :
    succeeding c w (succeed c w).1 (succeed c w).2 := rfl

/-- Success is one of the honest outcomes. -/
theorem honest_of_succeeding (c : Call) (w : World) (a : c.Answer) (w' : World)
    (succeeded : succeeding c w a w') : honestCall c w a w' := by
  cases c with
  | ufGet key =>
      simp only [succeeding, succeed] at succeeded
      cases found : w.uf key with
      | some value =>
          rw [found] at succeeded
          cases succeeded
          exact ⟨found, rfl⟩
      | none =>
          rw [found] at succeeded
          cases succeeded
          exact ⟨found, rfl⟩
  | _ => cases succeeded; exact ⟨by trivial, rfl⟩

theorem honest_succeed (c : Call) (w : World) : honestCall c w (succeed c w).1 (succeed c w).2 :=
  honest_of_succeeding c w _ _ (succeeding_succeed c w)

theorem any_succeed (c : Call) (w : World) : anyCall c w (succeed c w).1 (succeed c w).2 :=
  (honest_succeed c w).2

/-- The requests served from empty databases, each turn as the schedule says. -/
def played (requests : List Request) (turns : List Nat) : Threads × World :=
  Pool.play Pool.anyStep succeed turns (serve Json.reader requests, World.empty)

theorem played_succeeding (requests : List Request) (turns : List Nat) :
    Pool.Run succeeding Pool.anyStep (serve Json.reader requests) .empty
      (played requests turns).1 (played requests turns).2 :=
  Pool.run_play (S := calls) Pool.anyStep succeed succeeding_succeed _ _ turns

theorem run_played (requests : List Request) (turns : List Nat) :
    Pool.Run honestCall Pool.anyStep (serve Json.reader requests) .empty
      (played requests turns).1 (played requests turns).2 :=
  (played_succeeding requests turns).mono honest_of_succeeding

end Feedserver.Serving
