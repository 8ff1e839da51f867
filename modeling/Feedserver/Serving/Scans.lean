/-
# Serving.Scans — where get_articles cuts the keys it visits

The loop cuts each key it visits behind the feed and one character more, and hands what is
left to the deparser, which has no escaped form for an empty text. `scans_inside`: in every
state of every run, for every record that can be read, the cut is inside the key, as long as

* no submission brings a content that shows as empty,
* no subscribe brings a feed with a slash in it, and
* no subscribe brings a name that a record can give back as another (`Tame`).

`empty_content_visited` is a run with such a content.
-/
import Feedserver.Articles.Listing
import Feedserver.Serving.Requests

namespace Feedserver.Serving

open Feedserver.Theory
open Feedserver.Source
open Feedserver.Records
open Feedserver.Articles
open Pool (Run)

set_option autoImplicit false

/-- A feed that keys can be told apart by: verbatim, and without a slash. -/
def FlatFeed (feed : CString) : Prop := Json.Verbatim feed.bytes ∧ 0x2F ∉ feed.bytes

instance (feed : CString) : Decidable (FlatFeed feed) := inferInstanceAs (Decidable (_ ∧ _))

/-- The request brings no name and no content that a scan could stumble over. -/
structure Tame (json : Json.Parser) (request : Request) : Prop where
  names : request.1 = .subscribe →
    Brings (fun user => Json.Verbatim user.bytes) FlatFeed json request.2.body
  contents : request.1 = .submit → ∀ contents, submitted json request.2.body = some contents →
    ∀ content ∈ contents, (cstr content).bytes ≠ []

/-- For every record that can be read, every cut is inside its key and leaves something that
has an escaped form. -/
def ScansInside (json : Json.Parser) (w : World) : Prop :=
  ∀ user value p, w.uf user = some value → ufPairFromDbvalue json value = .ok (some p) →
    ∀ f ∈ p.feeds, ∀ key ∈ visited f w.fa.keys,
      f.bytes.length + 1 < (cstr key).bytes.length ∧
        ∃ content deparsed, articleContent f.bytes.length (cstr key) = .ok content ∧
          vcStringJsonDeparseChar content = some deparsed

section Runs

variable {json : Json.Parser} {requests : List Request} {w : World} {pool : Threads}
  {guard : Pool.Guard calls Fault HttpResponse World}

/-- Whatever can be read has flat feeds only. -/
theorem flat_records (tame : ∀ request ∈ requests, Tame json request)
    (run : Run honestCall guard (serve json requests) .empty pool w) {user value : Bytes} {p : UfPair}
    (stored : w.uf user = some value) (read : ufPairFromDbvalue json value = .ok (some p)) :
    ∀ f ∈ p.feeds, FlatFeed f := by
  have records : ∀ key value, w.uf key = some value →
      Stored (fun user => Json.Verbatim user.bytes) FlatFeed key value :=
    (run_records ?_ (by simp [World.empty]) run).1
  · obtain ⟨name, feeds, rfl, rfl, isUser, areFeeds⟩ := records _ _ stored
    obtain rfl : p = pairOf name feeds :=
      eq_of_read isUser (fun f member => (areFeeds f member).1) feeds.nodup read
    exact areFeeds
  · intro update req ufReq uf answer member accepted found decision
    refine (Stored.kept (fun _ verbatim => verbatim) (fun _ flat => flat.1) (fun subscribe => ?_)
      (nodup_of_accept accepted) found decision).1
    exact fit_of_accept accepted ((tame _ member).names (by rw [subscribe]; rfl))

/-- A key in the store is longer than its feed, the slash and nothing. -/
theorem inside_of_tame (tame : ∀ request ∈ requests, Tame json request)
    (run : Run honestCall guard (serve json requests) .empty pool w) {f : CString} (flat : FlatFeed f)
    {key : Bytes} (visits : key ∈ visited f w.fa.keys) : Inside f key := by
  have keys : ∀ key ∈ w.fa, ∃ feed content : CString, content.bytes ≠ [] ∧
      key = (articleKey feed content).bytes := run_articles ?_ (by simp [World.empty]) run
  · obtain ⟨member, front⟩ := mem_visited_iff.1 visits
    obtain ⟨feed, content, nonempty, rfl⟩ := keys key member
    rw [articleKey_bytes] at front
    have short := (prefix_of_key flat.2 front).length_le
    have some_ := List.length_pos_of_ne_nil nonempty
    rw [Inside, cstr_of_bytes, articleKey_bytes]
    simp only [List.length_append, List.length_cons]
    omega
  · rintro req key member ⟨feed, contents, content, submits, there, rfl⟩
    exact ⟨feed, cstr content, (tame _ member).contents rfl contents submits.contents content there,
      rfl⟩

/-- **Every cut is inside its key.** In every state of every run from the empty databases,
whatever order the requests take their turns in and whichever database calls fail. -/
theorem scans_inside (tame : ∀ request ∈ requests, Tame json request)
    (run : Run honestCall Pool.anyStep (serve json requests) .empty pool w) : ScansInside json w := by
  intro user value p stored read f member key visits
  have inside := inside_of_tame tame run (flat_records tame run stored read f member) visits
  obtain ⟨content, cut, -, nonempty⟩ := articleContent_inside inside
  refine ⟨inside, content, deparse content.bytes ++ [0], cut, ?_⟩
  rw [vcStringJsonDeparseChar_eq, if_neg nonempty]

end Runs

theorem tame_plainSubscribe : Tame Json.reader plainSubscribe where
  names _ := brings_of_fromRequest read_plainSubscribe ⟨by decide +kernel, by decide +kernel⟩
  contents := nofun

theorem tame_plainSubmission : Tame Json.reader plainSubmission where
  names := nofun
  contents _ := by
    have read : submitted Json.reader plainSubmission.2.body = some [ascii "x"] := by decide +kernel
    rintro contents same content member
    obtain rfl : [ascii "x"] = contents := Option.some.inj (read.symm.trans same)
    rw [List.mem_singleton.1 member]
    decide

theorem scans_inside_plain : ∃ pool w,
    Run honestCall Pool.anyStep (serve Json.reader [plainSubscribe, plainSubmission]) .empty pool w ∧
      (w.uf (ascii "u")).isSome = true ∧ visited (lit "a") w.fa.keys = [ascii "a/x"] ∧
        ScansInside Json.reader w := by
  have run := run_played [plainSubscribe, plainSubmission] [0, 0, 0, 1, 1]
  refine ⟨_, _, run, by decide +kernel, by decide +kernel, scans_inside (fun request member => ?_) run⟩
  rcases List.mem_cons.1 member with rfl | member
  · exact tame_plainSubscribe
  · rw [List.mem_singleton.1 member]
    exact tame_plainSubmission

/-- An article without a text. -/
def emptySubmission : Request :=
  (.submit, postFeed "a" "\x7b\"articles\":[\x7b\"content\":\"\"\x7d]\x7d")

theorem empty_content_visited : ¬ ∀ (requests : List Request) (pool : Threads) (w : World),
    Run honestCall Pool.anyStep (serve Json.reader requests) .empty pool w →
      ScansInside Json.reader w := by
  intro all
  let requests := [plainSubscribe, emptySubmission]
  let w := (played requests [0, 0, 0, 1, 1]).2
  have stored : w.uf (ascii "u") = some (dbText plainPair) := by decide +kernel
  have visits : ascii "a/" ∈ visited (lit "a") w.fa.keys := by decide +kernel
  obtain ⟨inside, -⟩ :=
    all _ _ _ (run_played requests _) _ _ _ stored read_plainPair _ (by decide) _ visits
  revert inside
  decide

end Feedserver.Serving
