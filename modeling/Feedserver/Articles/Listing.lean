/-
# Articles.Listing — what get_articles lists

For each feed the loop visits the keys that begin with the feed (`visited_eq_scan`) and cuts
each behind the feed and one character more. That stays inside the key, and leaves a content
to escape, when the key is at least two characters longer than the feed (`Inside`).

* `exec_listArticles`: when all visited keys are, the answer is the listing of their rows.
* `exec_listArticles_outside`: when one is not, the handler does not come to an answer.
* `listing_inj`: the answer determines the rows, as long as no quotation mark is in a feed.
-/
import Feedserver.Articles.Keys
import Feedserver.Theory.PrefixFree

namespace Feedserver.Articles

open Feedserver.Theory
open Feedserver.Source
open Feedserver.Records
open Program (exec)

set_option autoImplicit false

/-! ## The keys of a feed -/

/-- The condition of the inner loop. -/
def begins (feed : CString) (key : Bytes) : Bool :=
  strncmpEq feed.bytes (cstr key).bytes feed.bytes.length

/-- The keys that the inner loop visits for a feed. -/
def visited (feed : CString) (keys : List Bytes) : List Bytes :=
  (OrderedKeys.seek feed.bytes keys).takeWhile (begins feed)

/-- A terminator in a key hides nothing from the comparison. -/
theorem begins_iff (feed : CString) (key : Bytes) : begins feed key = true ↔ feed.bytes <+: key := by
  rw [begins, strncmpEq_length_iff]
  constructor
  · exact fun front => front.trans (List.takeWhile_prefix _)
  · rintro ⟨rest, rfl⟩
    have free : ∀ b ∈ feed.bytes, decide (b ≠ 0) = true := by
      intro b member
      have : b ≠ 0 := fun zero => feed.nulFree (zero ▸ member)
      simpa using this
    show feed.bytes <+: (feed.bytes ++ rest).takeWhile (· ≠ 0)
    rw [List.takeWhile_append_of_pos free]
    exact List.prefix_append _ _

theorem visited_eq_scan (feed : CString) (keys : List Bytes) :
    visited feed keys = OrderedKeys.scan feed.bytes keys :=
  OrderedKeys.takeWhile_seek_eq_scan (begins_iff feed) keys

theorem mem_visited_iff {feed : CString} {store : OrderedKeys UInt8} {key : Bytes} :
    key ∈ visited feed store.keys ↔ key ∈ store ∧ feed.bytes <+: key := by
  rw [visited_eq_scan, OrderedKeys.mem_scan_iff]

/-- The cut behind the feed and one more character is inside the key. -/
def Inside (feed : CString) (key : Bytes) : Prop :=
  feed.bytes.length + 1 < (cstr key).bytes.length

instance (feed : CString) (key : Bytes) : Decidable (Inside feed key) :=
  inferInstanceAs (Decidable (_ < _))

/-! ## Rows -/

/-- A feed and a content. -/
abbrev Row := CString × Bytes

def rowText (row : Row) : Bytes :=
  (lit "\x7b\"feed\":\"").bytes ++ row.1.bytes ++ (lit "\",\"content\":\"").bytes ++ deparse row.2 ++
    (lit "\"\x7d").bytes

def lineText (row : Row) : Bytes := rowText row ++ (lit ",\n").bytes

/-- What the cut leaves of a key. -/
def tailOf (feed : CString) (key : Bytes) : Bytes := (cstr key).bytes.drop (feed.bytes.length + 1)

/-- The row that a key adds to the listing of a feed. -/
def rowOf (feed : CString) (key : Bytes) : Row := (feed, tailOf feed key)

/-- The rows of these feeds, one feed after the other. -/
def rowsOf (feeds : List CString) (keys : List Bytes) : List Row :=
  feeds.flatMap fun feed => (visited feed keys).map (rowOf feed)

section Append

variable {feed : CString} {key s : Bytes} {vec : VcVector UInt8}

theorem articleContent_inside (inside : Inside feed key) :
    ∃ content, articleContent feed.bytes.length (cstr key) = .ok content ∧
      content.bytes = tailOf feed key ∧ content.bytes ≠ [] := by
  have within : feed.bytes.length + 1 ≤ (cstr key).bytes.length := Nat.le_of_lt inside
  have free : (0 : UInt8) ∉ (cstr key).bytes.drop (feed.bytes.length + 1) :=
    fun member => (cstr key).nulFree (List.mem_of_mem_drop member)
  refine ⟨cstr ((cstr key).bytes.drop (feed.bytes.length + 1)), ?_, cstr_bytes_of_nulFree free, ?_⟩
  · rw [articleContent, if_pos within]
  · rw [cstr_bytes_of_nulFree free]
    have : feed.bytes.length + 1 < (cstr key).bytes.length := inside
    simpa using this

theorem appendRow_inside (inside : Inside feed key) (builds : Builds vec s) :
    ∃ vec', appendRow feed key vec = .ok vec' ∧
      Builds vec' (s ++ lineText (rowOf feed key)) := by
  obtain ⟨content, cut, same, nonempty⟩ := articleContent_inside inside
  have deparsed : vcStringJsonDeparseChar content = some (deparse content.bytes ++ [0]) := by
    rw [vcStringJsonDeparseChar_eq, if_neg nonempty]
  have text : Builds (deparse content.bytes ++ [0]) (deparse content.bytes) := rfl
  have begun := text.begin_ (deparse_nulFree content)
  have row := ((((builds.append (lit "\x7b\"feed\":\"")).append feed).append
    (lit "\",\"content\":\"")).append (vcStringBegin (deparse content.bytes ++ [0]))).append
    (lit "\"\x7d,\n")
  refine ⟨_, by simp only [appendRow, cut, bind, Except.bind, deparsed, deref]; rfl, ?_⟩
  have closing : (lit "\"\x7d,\n").bytes = (lit "\"\x7d").bytes ++ (lit ",\n").bytes := by decide
  have rowIs : rowOf feed key = (feed, content.bytes) := by rw [same]; rfl
  rw [begun, closing] at row
  rw [rowIs]
  simpa only [lineText, rowText, List.append_assoc] using row

theorem appendRow_outside (outside : ¬ Inside feed key) (vec : VcVector UInt8) :
    ∃ reason, appendRow feed key vec = .error reason := by
  by_cases within : feed.bytes.length + 1 ≤ (cstr key).bytes.length
  · -- nothing is left behind the cut, and NULL is the escaped form of that
    have empty : (cstr key).bytes.drop (feed.bytes.length + 1) = [] := by
      rw [List.drop_eq_nil_iff]
      unfold Inside at outside
      omega
    refine ⟨.nullPointer, ?_⟩
    simp only [appendRow, articleContent, if_pos within, empty]
    rfl
  · refine ⟨.outOfBounds, ?_⟩
    simp only [appendRow, articleContent, if_neg within]
    rfl

end Append

/-! ## The loops -/

section Loops

variable {w : World} {feed : CString} {s : Bytes} {vec : VcVector UInt8}

theorem scanFeed_cons_of_neg {key : Bytes} {rest : List Bytes}
    (other : ¬ begins feed key = true) :
    scanFeed feed (key :: rest) vec = .done vec := by
  have test : ¬ strncmpEq feed.bytes (cstr key).bytes feed.bytes.length = true := other
  rw [scanFeed, if_neg test]
  rfl

theorem scanFeed_cons_of_pos {key : Bytes} {rest : List Bytes}
    (same : begins feed key = true) :
    scanFeed feed (key :: rest) vec =
      match appendRow feed key vec with
      | .error reason => .fault reason
      | .ok vec => .call (S := calls) .itNext fun _ => scanFeed feed rest vec := by
  have test : strncmpEq feed.bytes (cstr key).bytes feed.bytes.length = true := same
  rw [scanFeed]
  apply (if_pos test).trans
  cases appendRow feed key vec <;> rfl

/-- The inner loop, over what the iterator has in front of it. -/
theorem exec_scanFeed {keys : List Bytes} (builds : Builds vec s)
    (inside : ∀ key ∈ keys.takeWhile (begins feed), Inside feed key) :
    ∃ vec', exec succeed (scanFeed feed keys vec) w = (.ok vec', w) ∧
      Builds vec' (s ++ ((keys.takeWhile (begins feed)).map (rowOf feed)).flatMap lineText) := by
  induction keys generalizing vec s with
  | nil => exact ⟨vec, rfl, by simpa using builds⟩
  | cons key rest ih =>
      by_cases same : begins feed key = true
      · rw [List.takeWhile_cons_of_pos same] at inside ⊢
        obtain ⟨vec₁, appended, builds₁⟩ := appendRow_inside (inside key List.mem_cons_self) builds
        obtain ⟨vec', ran, builds'⟩ := ih builds₁ fun k member =>
          inside k (List.mem_cons_of_mem _ member)
        refine ⟨vec', ?_, by simpa using builds'⟩
        rw [scanFeed_cons_of_pos same, appended]
        exact ran
      · rw [List.takeWhile_cons_of_neg same]
        exact ⟨vec, by rw [scanFeed_cons_of_neg same]; rfl, by simpa using builds⟩

theorem exec_scanFeed_outside {keys : List Bytes} {key : Bytes}
    (member : key ∈ keys.takeWhile (begins feed)) (outside : ¬ Inside feed key)
    (vec : VcVector UInt8) :
    ∃ reason, exec succeed (scanFeed feed keys vec) w = (.error reason, w) := by
  induction keys generalizing vec with
  | nil => simp at member
  | cons first rest ih =>
      by_cases same : begins feed first = true
      · rw [List.takeWhile_cons_of_pos same] at member
        rw [scanFeed_cons_of_pos same]
        cases appended : appendRow feed first vec with
        | error reason => exact ⟨reason, rfl⟩
        | ok vec₁ =>
            rcases List.mem_cons.1 member with rfl | later
            · obtain ⟨reason, failed⟩ := appendRow_outside outside vec
              rw [failed] at appended
              cases appended
            · exact ih later vec₁
      · rw [List.takeWhile_cons_of_neg same] at member
        cases member

theorem exec_scanFeeds_cons {keys : List Bytes} {rest : List CString} :
    exec succeed (scanFeeds keys (feed :: rest) vec) w = exec succeed
      (scanFeed feed (OrderedKeys.seek feed.bytes keys) vec >>= scanFeeds keys rest) w := rfl

theorem exec_scanFeeds {keys : List Bytes} {feeds : List CString} (builds : Builds vec s)
    (inside : ∀ f ∈ feeds, ∀ key ∈ visited f keys, Inside f key) :
    ∃ vec', exec succeed (scanFeeds keys feeds vec) w = (.ok vec', w) ∧
      Builds vec' (s ++ (rowsOf feeds keys).flatMap lineText) := by
  induction feeds generalizing vec s with
  | nil => exact ⟨vec, rfl, by simpa [rowsOf] using builds⟩
  | cons feed rest ih =>
      obtain ⟨vec₁, ran, builds₁⟩ := exec_scanFeed (w := w) builds (inside feed List.mem_cons_self)
      obtain ⟨vec', ranRest, builds'⟩ := ih builds₁ fun f member =>
        inside f (List.mem_cons_of_mem _ member)
      refine ⟨vec', by rw [exec_scanFeeds_cons, Program.exec_bind_of_ok _ ran, ranRest], ?_⟩
      simpa [rowsOf, visited, List.append_assoc] using builds'

theorem exec_scanFeeds_outside {keys : List Bytes} {feeds : List CString} {f : CString} {key : Bytes}
    (builds : Builds vec s) (member : f ∈ feeds) (there : key ∈ visited f keys)
    (outside : ¬ Inside f key) :
    ∃ reason, exec succeed (scanFeeds keys feeds vec) w = (.error reason, w) := by
  induction feeds generalizing vec s with
  | nil => simp at member
  | cons feed rest ih =>
      by_cases early : ∃ k ∈ visited feed keys, ¬ Inside feed k
      · obtain ⟨k, visits, beyond⟩ := early
        obtain ⟨reason, failed⟩ := exec_scanFeed_outside (w := w) visits beyond vec
        exact ⟨reason, by
          rw [exec_scanFeeds_cons, Program.exec_bind_of_error _ failed]⟩
      · have inside : ∀ k ∈ visited feed keys, Inside feed k := by simpa using early
        obtain ⟨vec₁, ran, builds₁⟩ := exec_scanFeed (w := w) builds inside
        rcases List.mem_cons.1 member with rfl | later
        · exact absurd (inside key there) outside
        · obtain ⟨reason, failed⟩ := ih builds₁ later
          exact ⟨reason, by
            rw [exec_scanFeeds_cons, Program.exec_bind_of_ok _ ran, failed]⟩

end Loops

/-! ## The answer -/

def headingText : Bytes := (lit "\x7b\"articles\":[\n").bytes

/-- The listing of some rows. -/
def listingText (rows : List Row) : Bytes :=
  headingText ++ List.intercalate (lit ",\n").bytes (rows.map rowText) ++ (lit "\n]\x7d\n").bytes

/-- The response that lists these rows: 204 when there are none. -/
def listing (req : HttpRequest) (rows : List Row) : HttpResponse :=
  if rows = [] then decline .status204 (lit "No articles for user!") req
  else respondJson (listingText rows) (listingText rows).length req

theorem respondJson_of_builds {vec : VcVector UInt8} {s : Bytes} (builds : Builds vec s)
    (req : HttpRequest) : respondJson vec (vcStringLength vec) req = respondJson s s.length req := by
  have length := builds.length
  rw [Builds] at builds
  rw [length, builds]
  simp [respondJson]

theorem lineText_length_pos (row : Row) : 0 < (lineText row).length := by
  have separator : (lit ",\n").bytes.length = 2 := by decide
  rw [lineText, List.length_append, separator]
  omega

/-- The last separator is trimmed, and the listing closed. -/
theorem respondArticles_eq {req : HttpRequest} {vec : VcVector UInt8} {rows : List Row}
    (builds : Builds vec (headingText ++ rows.flatMap lineText)) :
    respondArticles req headingText.length vec = listing req rows := by
  have length := builds.length
  unfold respondArticles listing
  cases rows with
  | nil =>
      have short : ¬ vcStringLength vec > headingText.length := by simp [length]
      rw [if_neg short, if_pos rfl]
  | cons row rest =>
      have long : vcStringLength vec > headingText.length := by
        have := lineText_length_pos row
        rw [length, List.flatMap_cons]
        simp only [List.length_append]
        omega
      have two : (lit ",\n").bytes.length = 2 := by decide
      have split : headingText ++ (row :: rest).flatMap lineText =
          headingText ++ List.intercalate (lit ",\n").bytes ((row :: rest).map rowText) ++
            (lit ",\n").bytes := by
        rw [List.append_assoc, intercalate_append_separator _ rowText (by simp)]
        rfl
      rw [split] at builds
      have closed := builds.nRemove.append (lit "\n]\x7d\n")
      rw [two] at closed
      rw [if_pos long, if_neg (by simp)]
      exact respondJson_of_builds closed req

section Lists

variable {json : Json.Parser} {req : HttpRequest} {dbVal : Bytes} {p : UfPair} {w : World}

theorem builds_heading :
    Builds (vcStringAppend vcStringCreate (lit "\x7b\"articles\":[\n")) headingText :=
  builds_create.append _

theorem exec_listArticles_eq (read : ufPairFromDbvalue json dbVal = .ok (some p)) :
    exec succeed (listArticles json req dbVal) w = exec succeed
      (scanFeeds w.fa.keys p.feeds (vcStringAppend vcStringCreate (lit "\x7b\"articles\":[\n")) >>=
        fun vec => .call (S := calls) .itDelete fun _ =>
          .done (respondArticles req headingText.length vec)) w := by
  rw [← builds_heading.length]
  unfold listArticles
  rw [read]
  rfl

/-- When every cut is inside its key, the rows are listed. -/
theorem exec_listArticles (read : ufPairFromDbvalue json dbVal = .ok (some p))
    (inside : ∀ f ∈ p.feeds, ∀ key ∈ visited f w.fa.keys, Inside f key) :
    exec succeed (listArticles json req dbVal) w =
      (.ok (listing req (rowsOf p.feeds w.fa.keys)), w) := by
  obtain ⟨vec, ran, builds⟩ := exec_scanFeeds (w := w) builds_heading inside
  rw [exec_listArticles_eq read, Program.exec_bind_of_ok _ ran]
  show (Except.ok (respondArticles req headingText.length vec), w) = _
  rw [respondArticles_eq builds]

/-- When one is not, there is no answer. -/
theorem exec_listArticles_outside (read : ufPairFromDbvalue json dbVal = .ok (some p)) {f : CString}
    {key : Bytes} (member : f ∈ p.feeds) (there : key ∈ visited f w.fa.keys)
    (outside : ¬ Inside f key) :
    ∃ reason, exec succeed (listArticles json req dbVal) w = (.error reason, w) := by
  obtain ⟨reason, failed⟩ := exec_scanFeeds_outside (w := w) builds_heading member there outside
  exact ⟨reason, by rw [exec_listArticles_eq read, Program.exec_bind_of_error _ failed]⟩

end Lists

/-! ## Reading the rows off the answer -/

/-- An escape is a backslash and one more character; every other character stands for itself. -/
theorem jsonDeparseByte_cases (b : UInt8) :
    (jsonDeparseByte b = [b] ∧ b ≠ 0x22 ∧ b ≠ 0x5C) ∨
      ∃ e, jsonDeparseByte b = [0x5C, e] ∧ Json.simpleEscape e = some b := by
  unfold jsonDeparseByte
  repeat' split
  all_goals first
    | subst b; exact .inr ⟨_, rfl, rfl⟩
    | exact .inl ⟨rfl, by assumption, by assumption⟩

theorem prefixFree_deparseByte : PrefixFreeOn Set.univ jsonDeparseByte := by
  intro a b x y _ _ same
  rcases jsonDeparseByte_cases a with ⟨rawA, -, plainA⟩ | ⟨e, escapedA, fromA⟩ <;>
    rcases jsonDeparseByte_cases b with ⟨rawB, -, plainB⟩ | ⟨e', escapedB, fromB⟩
  · rw [rawA, rawB] at same
    simpa using same
  · rw [rawA, escapedB] at same
    exact absurd (List.cons.inj same).1 plainA
  · rw [escapedA, rawB] at same
    exact absurd (List.cons.inj same).1.symm plainB
  · rw [escapedA, escapedB] at same
    simp only [List.cons_append, List.nil_append, List.cons.injEq, true_and] at same
    obtain ⟨rfl, rest⟩ := same
    exact ⟨Option.some.inj (fromA.symm.trans fromB), rest⟩

/-- The escaped content, closed by a quotation mark. -/
theorem prefixFree_content :
    PrefixFreeOn (listsOf Set.univ) fun c : Bytes => deparse c ++ [0x22] := by
  apply prefixFree_deparseByte.terminated
  intro b _
  rcases jsonDeparseByte_cases b with ⟨raw, notQuote, -⟩ | ⟨e, escaped, -⟩
  · exact ⟨b, [], raw, notQuote⟩
  · exact ⟨0x5C, [e], escaped, by decide⟩

/-- The feeds that no quotation mark is in. -/
def Unquoted : Set CString := {f | 0x22 ∉ f.bytes}

theorem prefixFree_feed : PrefixFreeOn Unquoted fun f : CString => f.bytes ++ [0x22] := by
  have letters : PrefixFreeOn {b : UInt8 | b ≠ 0x22} fun b => [b] :=
    PrefixFreeOn.of_length (n := 1) (fun _ _ => rfl) fun a _ b _ same => by simpa using same
  have words : PrefixFreeOn (listsOf {b : UInt8 | b ≠ 0x22})
      fun l => l.flatMap (fun b => [b]) ++ [0x22] :=
    letters.terminated fun b other => ⟨b, [], rfl, other⟩
  intro f g x y inF inG same
  have apart (h : CString) (unquoted : h ∈ Unquoted) : h.bytes ∈ listsOf {b : UInt8 | b ≠ 0x22} :=
    fun b member quote => unquoted (quote ▸ member)
  obtain ⟨bytes, rest⟩ := words (apart f inF) (apart g inG) (by simpa using same)
  exact ⟨CString.ext bytes, rest⟩

theorem prefixFree_lineText : PrefixFreeOn {row : Row | row.1 ∈ Unquoted} lineText := by
  have free := ((prefixFree_feed.behind (lit "\x7b\"feed\":\"").bytes).seq
    (prefixFree_content.behind (lit ",\"content\":\"").bytes)).before (lit "\x7d,\n").bytes
  have split : (lit "\",\"content\":\"").bytes = [0x22] ++ (lit ",\"content\":\"").bytes := by decide
  have ending : (lit "\"\x7d").bytes ++ (lit ",\n").bytes = [0x22] ++ (lit "\x7d,\n").bytes := by
    decide
  intro row row' x y inRow inRow' same
  have whole (r : Row) : lineText r = (lit "\x7b\"feed\":\"").bytes ++ (r.1.bytes ++ [0x22]) ++
      ((lit ",\"content\":\"").bytes ++ (deparse r.2 ++ [0x22])) ++ (lit "\x7d,\n").bytes := by
    rw [lineText, rowText, split]
    simp only [List.append_assoc, ending]
  rw [whole, whole] at same
  exact free ⟨inRow, fun _ _ => trivial⟩ ⟨inRow', fun _ _ => trivial⟩ same

theorem rowText_ne_nil (row : Row) : rowText row ≠ [] := by
  have opening : (lit "\x7b\"feed\":\"").bytes ≠ [] := by decide
  simp [rowText, opening]

/-- The answer says which rows were listed. -/
theorem listing_inj {req : HttpRequest} {rows rows' : List Row}
    (unquoted : ∀ row ∈ rows, row.1 ∈ Unquoted) (unquoted' : ∀ row ∈ rows', row.1 ∈ Unquoted)
    (same : listing req rows = listing req rows') : rows = rows' := by
  unfold listing at same
  by_cases none : rows = [] <;> by_cases none' : rows' = []
  · rw [none, none']
  · rw [if_pos none, if_neg none'] at same
    have status := congrArg HttpResponse.status same
    simp at status
  · rw [if_neg none, if_pos none'] at same
    have status := congrArg HttpResponse.status same
    simp at status
  · rw [if_neg none, if_neg none'] at same
    have text : listingText rows = listingText rows' := by
      simpa using congrArg HttpResponse.body same
    simp only [listingText, List.append_assoc, List.append_cancel_left_eq,
      List.append_cancel_right_eq] at text
    have free : PrefixFreeOn {row : Row | row.1 ∈ Unquoted}
        fun row => rowText row ++ (lit ",\n").bytes := prefixFree_lineText
    exact free.intercalate_injOn (fun row _ => rowText_ne_nil row) unquoted unquoted' text

end Feedserver.Articles
