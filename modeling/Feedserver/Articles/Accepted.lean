/-
# Articles.Accepted — when a listing is exactly what was accepted

`accepted feed content` is any relation that the article database keeps (`KeepsAccepted`). An answer
lists it (`Lists`) when it has, for each feed in order, that feed's contents in byte order,
each once. The scan compares as many characters as the feed has, and no slash behind them, so
`lists_iff`: the handler's answer does so exactly when no other feed with articles has the
feed in front of it, and no content is cut short by a NUL byte (`Unambiguous`).

One direction follows the keys through the loop. The other counts: every accepted content has
a key among the visited ones, so when there are no more rows than contents, no other feed's
key is among them.
-/
import Feedserver.Articles.Listing

namespace Feedserver.Articles

open Feedserver.Theory
open Feedserver.Source
open Feedserver.Records
open Program (exec)

set_option autoImplicit false

/-! ## Rows by feed -/

/-- The rows that give each feed its contents. -/
def labelled (feeds : List CString) (contents : CString → List Bytes) : List Row :=
  feeds.flatMap fun f => (contents f).map (Prod.mk f)

theorem rowsOf_eq (feeds : List CString) (keys : List Bytes) :
    rowsOf feeds keys = labelled feeds fun f => (visited f keys).map (tailOf f) := by
  unfold rowsOf labelled
  congr 1
  funext f
  rw [List.map_map]
  rfl

theorem feed_of_labelled {feeds : List CString} {contents : CString → List Bytes} {row : Row}
    (member : row ∈ labelled feeds contents) : row.1 ∈ feeds := by
  obtain ⟨f, inFeeds, inRows⟩ := List.mem_flatMap.1 member
  obtain ⟨c, -, rfl⟩ := List.mem_map.1 inRows
  exact inFeeds

/-- Without duplicates among the feeds, the rows say what each feed's contents are. -/
theorem labelled_filter {feeds : List CString} {contents : CString → List Bytes} {f : CString}
    (nodup : feeds.Nodup) (member : f ∈ feeds) :
    (labelled feeds contents).filter (fun row => row.1 = f) = (contents f).map (Prod.mk f) := by
  induction feeds with
  | nil => cases member
  | cons g rest ih =>
      obtain ⟨fresh, nodupRest⟩ := List.nodup_cons.1 nodup
      have split : labelled (g :: rest) contents =
          (contents g).map (Prod.mk g) ++ labelled rest contents := rfl
      rw [split, List.filter_append]
      by_cases here : g = f
      · subst here
        have own : ((contents g).map (Prod.mk g)).filter (fun row => row.1 = g) =
            (contents g).map (Prod.mk g) := by
          apply List.filter_eq_self.2
          intro row inRows
          obtain ⟨c, -, rfl⟩ := List.mem_map.1 inRows
          simp
        have none : (labelled rest contents).filter (fun row => row.1 = g) = [] := by
          apply List.filter_eq_nil_iff.2
          intro row inRows same
          have isFeed : row.1 = g := by simpa using same
          exact fresh (isFeed ▸ feed_of_labelled inRows)
        rw [own, none, List.append_nil]
      · have other : ((contents g).map (Prod.mk g)).filter (fun row => row.1 = f) = [] := by
          apply List.filter_eq_nil_iff.2
          intro row inRows
          obtain ⟨c, -, rfl⟩ := List.mem_map.1 inRows
          simpa using here
        rw [other, List.nil_append]
        exact ih nodupRest ((List.mem_cons.1 member).resolve_left fun same => here same.symm)

theorem labelled_inj {feeds : List CString} {contents contents' : CString → List Bytes} {f : CString}
    (nodup : feeds.Nodup) (same : labelled feeds contents = labelled feeds contents')
    (member : f ∈ feeds) : contents f = contents' f := by
  have rows : (labelled feeds contents).filter (fun row => row.1 = f) =
      (contents f).map (Prod.mk f) := labelled_filter nodup member
  rw [same, labelled_filter nodup member] at rows
  exact (List.map_injective_iff.2 (Prod.mk_right_injective f) rows).symm

/-! ## What an answer should list -/

/-- The article database is the keys of what has been accepted: for valid feeds, and never
an empty content. -/
structure KeepsAccepted (store : OrderedKeys UInt8) (accepted : CString → Bytes → Prop) : Prop where
  mem_iff : ∀ key, key ∈ store ↔
    ∃ feed content, accepted feed content ∧ key = (articleKey feed (cstr content)).bytes
  valid : ∀ {feed content}, accepted feed content → ValidName feed
  nonempty : ∀ {feed content}, accepted feed content → content ≠ []

/-- The answer has the accepted contents of each feed, in byte order and each once, and it is
204 exactly when there are none. -/
def Lists (accepted : CString → Bytes → Prop) (feeds : List CString) (req : HttpRequest)
    (answer : Except Fault HttpResponse) : Prop :=
  ∃ contents : CString → List Bytes,
    (∀ f ∈ feeds, (contents f).Pairwise (· < ·) ∧ ∀ c, c ∈ contents f ↔ accepted f c) ∧
      answer = .ok (listing req (labelled feeds contents)) ∧
        ((listing req (labelled feeds contents)).status = .status204 ↔
          ∀ f ∈ feeds, ∀ c, ¬ accepted f c)

/-- No content of these feeds has a NUL byte in it, and no other feed with articles has one of
these in front of it. -/
def Unambiguous (accepted : CString → Bytes → Prop) (feeds : List CString) : Prop :=
  ∀ f ∈ feeds, (∀ c, accepted f c → 0 ∉ c) ∧ ∀ g c, accepted g c → f.bytes <+: g.bytes → g = f

/-- A listing is 204 when it has no row, and 200 otherwise. -/
theorem listing_status (req : HttpRequest) (rows : List Row) :
    (listing req rows).status = if rows = [] then .status204 else .status200 := by
  unfold listing
  split <;> simp

theorem labelled_eq_nil_iff {feeds : List CString} {contents : CString → List Bytes} :
    labelled feeds contents = [] ↔ ∀ f ∈ feeds, contents f = [] := by
  simp [labelled]

theorem listing_status_204_iff {accepted : CString → Bytes → Prop} {feeds : List CString}
    {contents : CString → List Bytes} (exact : ∀ f ∈ feeds, ∀ c, c ∈ contents f ↔ accepted f c)
    (req : HttpRequest) : (listing req (labelled feeds contents)).status = .status204 ↔
      ∀ f ∈ feeds, ∀ c, ¬ accepted f c := by
  have empty : labelled feeds contents = [] ↔ ∀ f ∈ feeds, ∀ c, ¬ accepted f c := by
    rw [labelled_eq_nil_iff]
    apply forall₂_congr
    intro f member
    rw [List.eq_nil_iff_forall_not_mem]
    exact forall_congr' fun c => not_congr (exact f member c)
  rw [listing_status, ← empty]
  by_cases none : labelled feeds contents = []
  · simp [none]
  · simp [none]

section KeepsAccepted

variable {store : OrderedKeys UInt8} {accepted : CString → Bytes → Prop} {feeds : List CString}
  {f : CString}

theorem KeepsAccepted.visited_of_accepted (keeps : KeepsAccepted store accepted) {c : Bytes}
    (took : accepted f c) : (articleKey f (cstr c)).bytes ∈ visited f store.keys := by
  apply mem_visited_iff.2
  refine ⟨(keeps.mem_iff _).2 ⟨f, c, took, rfl⟩, ?_⟩
  rw [articleKey_bytes]
  exact List.prefix_append _ _

theorem KeepsAccepted.accepted_of_visited (keeps : KeepsAccepted store accepted)
    (noSlash : 0x2F ∉ f.bytes) {key : Bytes} (visits : key ∈ visited f store.keys) :
    ∃ g c, accepted g c ∧ f.bytes <+: g.bytes ∧
      key = (articleKey g (cstr c)).bytes := by
  obtain ⟨member, front⟩ := mem_visited_iff.1 visits
  obtain ⟨g, c, took, rfl⟩ := (keeps.mem_iff _).1 member
  rw [articleKey_bytes] at front
  exact ⟨g, c, took, prefix_of_key noSlash front, rfl⟩

theorem visited_ascending (f : CString) (store : OrderedKeys UInt8) :
    (visited f store.keys).Pairwise (· < ·) := by
  rw [visited_eq_scan, OrderedKeys.scan_eq_filter store.ascending]
  exact store.ascending.filter _

/-- The cut gives back a content that shows in full. -/
theorem tailOf_articleKey (f content : CString) :
    tailOf f (articleKey f content).bytes = content.bytes := by
  rw [tailOf, cstr_of_bytes, articleKey_bytes]
  simp

/-! ## Unambiguous feeds are listed -/

/-- Every key that is visited for a feed is one of its own articles. -/
theorem own_of_visited (keeps : KeepsAccepted store accepted) (clear : Unambiguous accepted feeds)
    (member : f ∈ feeds) (valid : ValidName f) {key : Bytes} (visits : key ∈ visited f store.keys) :
    ∃ c, accepted f c ∧ (cstr c).bytes = c ∧ key = (articleKey f (cstr c)).bytes := by
  obtain ⟨g, c, took, front, rfl⟩ := keeps.accepted_of_visited valid.no_slash visits
  obtain rfl : g = f := (clear f member).2 g c took front
  exact ⟨c, took, cstr_bytes_of_nulFree ((clear g member).1 c took), rfl⟩

theorem inside_of_visited (keeps : KeepsAccepted store accepted) (clear : Unambiguous accepted feeds)
    (member : f ∈ feeds) (valid : ValidName f) {key : Bytes} (visits : key ∈ visited f store.keys) :
    Inside f key := by
  obtain ⟨c, took, shown, rfl⟩ := own_of_visited keeps clear member valid visits
  have some_ : 0 < c.length := List.length_pos_of_ne_nil (keeps.nonempty took)
  rw [Inside, cstr_of_bytes, articleKey_bytes, shown]
  simp only [List.length_append, List.length_cons]
  omega

theorem mem_tails_iff (keeps : KeepsAccepted store accepted) (clear : Unambiguous accepted feeds)
    (member : f ∈ feeds) (valid : ValidName f) (c : Bytes) :
    c ∈ (visited f store.keys).map (tailOf f) ↔ accepted f c := by
  constructor
  · intro tail
    obtain ⟨key, visits, rfl⟩ := List.mem_map.1 tail
    obtain ⟨c, took, shown, rfl⟩ := own_of_visited keeps clear member valid visits
    rw [tailOf_articleKey, shown]
    exact took
  · intro took
    refine List.mem_map.2 ⟨_, keeps.visited_of_accepted took, ?_⟩
    rw [tailOf_articleKey, cstr_bytes_of_nulFree ((clear f member).1 c took)]

/-- Keys of one feed are in the order of their contents. -/
theorem tails_ascending (keeps : KeepsAccepted store accepted) (clear : Unambiguous accepted feeds)
    (member : f ∈ feeds) (valid : ValidName f) :
    ((visited f store.keys).map (tailOf f)).Pairwise (· < ·) := by
  rw [List.pairwise_map]
  refine (visited_ascending f store).imp_of_mem fun {key later} visits visitsLater less => ?_
  obtain ⟨c, -, -, rfl⟩ := own_of_visited keeps clear member valid visits
  obtain ⟨d, -, -, rfl⟩ := own_of_visited keeps clear member valid visitsLater
  have front (content : CString) :
      (articleKey f content).bytes = (f.bytes ++ [0x2F]) ++ content.bytes := by
    rw [articleKey_bytes, List.append_assoc]
    rfl
  rw [front, front] at less
  rw [tailOf_articleKey, tailOf_articleKey]
  exact Lexicographic.append_lt_append_iff.1 less

/-! ## What is listed is unambiguous -/

/-- When the visited keys, cut, are the accepted contents, none of them is another feed's. -/
theorem clear_of_tails (keeps : KeepsAccepted store accepted) (valid : ValidName f)
    {contents : List Bytes} (nodup : contents.Nodup) (exact : ∀ c, c ∈ contents ↔ accepted f c)
    (tails : (visited f store.keys).map (tailOf f) = contents) :
    (∀ c, accepted f c → 0 ∉ c) ∧ ∀ g c, accepted g c → f.bytes <+: g.bytes → g = f := by
  have nulFree : ∀ c, accepted f c → 0 ∉ c := by
    intro c took
    have listed : c ∈ contents := (exact c).2 took
    rw [← tails] at listed
    obtain ⟨key, -, rfl⟩ := List.mem_map.1 listed
    exact fun member => (cstr key).nulFree (List.mem_of_mem_drop member)
  refine ⟨nulFree, ?_⟩
  intro g c took front
  -- each content has its own key among the visited ones, and there are no more keys than contents
  let own := contents.map fun c => (articleKey f (cstr c)).bytes
  have nodupOwn : own.Nodup := by
    apply nodup.map_on
    intro c inC d inD same
    have shown := (articleKey_inj valid.no_slash valid.no_slash same).2
    rw [← cstr_bytes_of_nulFree (nulFree c ((exact c).1 inC)), shown,
      cstr_bytes_of_nulFree (nulFree d ((exact d).1 inD))]
  have among : own ⊆ visited f store.keys := by
    intro key inOwn
    obtain ⟨d, inD, rfl⟩ := List.mem_map.1 inOwn
    exact keeps.visited_of_accepted ((exact d).1 inD)
  have length : (visited f store.keys).length ≤ own.length := by
    show _ ≤ (contents.map _).length
    rw [← tails, List.length_map, List.length_map]
  have perm := (List.subperm_of_subset nodupOwn among).perm_of_length_le length
  have visits : (articleKey g (cstr c)).bytes ∈ visited f store.keys := by
    apply mem_visited_iff.2
    refine ⟨(keeps.mem_iff _).2 ⟨g, c, took, rfl⟩, ?_⟩
    rw [articleKey_bytes]
    exact front.trans (List.prefix_append _ _)
  obtain ⟨d, -, same⟩ := List.mem_map.1 (perm.mem_iff.2 visits)
  exact (articleKey_inj valid.no_slash (keeps.valid took).no_slash same).1.symm

end KeepsAccepted

theorem unquoted_of_valid {name : CString} (valid : ValidName name) : name ∈ Unquoted :=
  fun member => (valid.plain _ member).2.1 rfl

/-- The handler lists what was accepted, exactly when that is unambiguous. -/
theorem lists_iff {json : Json.Parser} {req : HttpRequest} {dbVal : Bytes} {p : UfPair} {w : World}
    {accepted : CString → Bytes → Prop} (keeps : KeepsAccepted w.fa accepted)
    (valid : ∀ f ∈ p.feeds, ValidName f) (nodup : p.feeds.Nodup)
    (read : ufPairFromDbvalue json dbVal = .ok (some p)) :
    Lists accepted p.feeds req (exec succeed (listArticles json req dbVal) w).1 ↔
      Unambiguous accepted p.feeds := by
  constructor
  · rintro ⟨contents, exact, answered, -⟩
    have inside : ∀ f ∈ p.feeds, ∀ key ∈ visited f w.fa.keys, Inside f key := by
      intro f member key visits
      by_contra outside
      obtain ⟨reason, failed⟩ : ∃ reason, exec succeed (listArticles json req dbVal) w =
          (.error reason, w) := exec_listArticles_outside read member visits outside
      rw [failed] at answered
      cases answered
    rw [exec_listArticles read inside, rowsOf_eq] at answered
    have unquoted {contents' : CString → List Bytes} :
        ∀ row ∈ labelled p.feeds contents', row.1 ∈ Unquoted :=
      fun row member => unquoted_of_valid (valid _ (feed_of_labelled member))
    have rows := listing_inj unquoted unquoted (Except.ok.inj answered)
    intro f member
    have once : (contents f).Nodup := (exact f member).1.imp fun less => ne_of_lt less
    exact clear_of_tails keeps (valid f member) once (exact f member).2
      (labelled_inj nodup rows member)
  · intro clear
    have inside : ∀ f ∈ p.feeds, ∀ key ∈ visited f w.fa.keys, Inside f key :=
      fun f member key visits => inside_of_visited keeps clear member (valid f member) visits
    rw [exec_listArticles read inside, rowsOf_eq]
    have exact := fun f member => mem_tails_iff keeps clear member (valid f member)
    refine ⟨_, fun f member => ⟨?_, exact f member⟩, rfl, listing_status_204_iff exact req⟩
    exact tails_ascending keeps clear member (valid f member)

end Feedserver.Articles
