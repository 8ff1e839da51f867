/-
# Serving.ListingText — when the article listing is a JSON text

The listing pastes feeds and escaped contents between fixed pieces, so it is lexed piece by
piece. `vc_string_json_deparse_char` escapes every white-space character but the vertical tab,
which `isarticle_valid` lets through with the others.

* `run_deparse`, `noVt_of_run`: the escaped form of a valid content is read back as the content,
  or not at all when there is a vertical tab in it.
* `denotes_listingText_iff`: so with the whole listing and its rows.
* `listing_json_iff`: what `get_articles` answers with, in these terms.
-/
import Feedserver.Articles.Listing
import Feedserver.Serving.Sequential

namespace Feedserver.Serving

open Feedserver.Theory
open Feedserver.Theory.Json (Token LexState)
open Feedserver.Source
open Feedserver.Records
open Feedserver.Articles
open Program (exec)

set_option autoImplicit false

/-! ## Contents -/

/-- What `isarticle_valid` lets through, character by character. -/
def Lets (b : UInt8) : Prop := (isprint b || isspace b) = true

/-- The one character let through that is below 0x20 and not escaped is the vertical tab. -/
theorem unescaped_of_raw {b : UInt8} (lets : Lets b) (raw : jsonDeparseByte b = [b])
    (notVt : b ≠ 0x0B) : Json.Unescaped b := by
  have table : ∀ n : Fin 256, Lets (.ofNat n) → jsonDeparseByte (.ofNat n) = [.ofNat n] →
      UInt8.ofNat n ≠ 0x0B → Json.Unescaped (.ofNat n) := by
    unfold Lets
    decide +kernel
  have here := table ⟨b.toNat, b.toNat_lt⟩
  simp only [UInt8.ofNat_toNat] at here
  exact here lets raw notVt

theorem step_escape {e b : UInt8} (escape : Json.simpleEscape e = some b) (s : Bytes) :
    Json.step (.escape s) e = some (.text (s ++ [b]), []) := by
  have notU : e ≠ 0x75 := by
    rintro rfl
    cases escape
  simp [Json.step, notU, escape]

theorem run_deparseByte {b : UInt8} (lets : Lets b) (notVt : b ≠ 0x0B) (s : Bytes) :
    Json.run (.text s) (jsonDeparseByte b) = some (.text (s ++ [b]), []) := by
  rcases jsonDeparseByte_cases b with ⟨raw, -, -⟩ | ⟨e, escaped, escape⟩
  · have plain := Json.step_text_unescaped (s := s) (unescaped_of_raw lets raw notVt)
    rw [raw]
    exact Json.run_cons_eq_some.2 ⟨_, [], [], plain, rfl, rfl⟩
  · have backslash : Json.step (.text s) 0x5C = some (.escape s, []) := rfl
    have letter : Json.run (.escape s) [e] = some (.text (s ++ [b]), []) :=
      Json.run_cons_eq_some.2 ⟨_, [], [], step_escape escape s, rfl, rfl⟩
    rw [escaped]
    exact Json.run_cons_eq_some.2 ⟨_, [], [], backslash, letter, rfl⟩

/-- A content without a vertical tab is read back from its escaped form. -/
theorem run_deparse {content : Bytes} (lets : ∀ b ∈ content, Lets b) (noVt : 0x0B ∉ content)
    (s : Bytes) : Json.run (.text s) (deparse content) = some (.text (s ++ content), []) := by
  induction content generalizing s with
  | nil => simp [deparse, Json.run]
  | cons b bs ih =>
      have notVt : b ≠ 0x0B := fun same => noVt (same ▸ List.mem_cons_self)
      have first := run_deparseByte (lets b List.mem_cons_self) notVt s
      have rest := ih (fun c member => lets c (List.mem_cons_of_mem _ member))
        (fun member => noVt (List.mem_cons_of_mem _ member)) (s ++ [b])
      have whole := Json.run_append first rest
      rw [List.append_assoc] at whole
      exact whole

/-- One with a vertical tab is not read at all. -/
theorem noVt_of_run {content : Bytes} {s : Bytes} {st : LexState} {tokens : List Token}
    (lets : ∀ b ∈ content, Lets b)
    (ran : Json.run (.text s) (deparse content) = some (st, tokens)) : 0x0B ∉ content := by
  induction content generalizing s tokens with
  | nil => simp
  | cons b bs ih =>
      obtain ⟨st', first, rest, ranByte, ranRest, -⟩ := Json.run_append_eq_some.1 ran
      by_cases vt : b = 0x0B
      · -- the vertical tab stands for itself, and a string has no step for it
        subst vt
        cases ranByte
      · rw [run_deparseByte (lets b List.mem_cons_self) vt s] at ranByte
        cases ranByte
        intro member
        rcases List.mem_cons.1 member with same | later
        · exact vt same.symm
        · exact ih (fun c member => lets c (List.mem_cons_of_mem _ member)) ranRest later

/-! ## Rows -/

/-- A row of a valid feed and a content that is let through. -/
structure Listable (row : Row) : Prop where
  feed : ValidName row.1
  content : ∀ b ∈ row.2, Lets b

/-- A row up to its content. -/
def rowHead (feed : CString) : Bytes :=
  (lit "\x7b\"feed\":\"").bytes ++ feed.bytes ++ (lit "\",\"content\":\"").bytes

def headTokensOf (feed : CString) : List Token :=
  [.beginObject, .string (ascii "feed"), .nameSeparator, .string feed.bytes, .valueSeparator,
    .string (ascii "content"), .nameSeparator]

def rowTokens (row : Row) : List Token :=
  headTokensOf row.1 ++ [.string row.2, .endObject]

theorem run_rowHead {feed : CString} (valid : ValidName feed) :
    Json.run .between (rowHead feed) = some (.text [], headTokensOf feed) := by
  have opening : Json.run .between (lit "\x7b\"feed\":\"").bytes = some (.text [],
      [.beginObject, .string (ascii "feed"), .nameSeparator]) := rfl
  have name := Json.run_append opening (Json.run_plain (s := []) valid.plain)
  have middle : Json.run (.text feed.bytes) (lit "\",\"content\":\"").bytes = some (.text [],
      [.string feed.bytes, .valueSeparator, .string (ascii "content"), .nameSeparator]) := rfl
  exact Json.run_append name middle

theorem rowText_eq (row : Row) :
    rowText row = rowHead row.1 ++ (deparse row.2 ++ (lit "\"\x7d").bytes) := by
  simp [rowText, rowHead]

theorem run_rowText {row : Row} (listable : Listable row) (noVt : 0x0B ∉ row.2) :
    Json.run .between (rowText row) = some (.between, rowTokens row) := by
  have content := run_deparse listable.content noVt []
  have closing : Json.run (.text row.2) (lit "\"\x7d").bytes =
      some (.between, [.string row.2, .endObject]) := rfl
  rw [rowText_eq]
  exact Json.run_append (run_rowHead listable.feed) (Json.run_append content closing)

theorem noVt_of_run_rowText {row : Row} (listable : Listable row) {rest : Bytes} {st : LexState}
    {tokens : List Token} (ran : Json.run .between (rowText row ++ rest) = some (st, tokens)) :
    0x0B ∉ row.2 := by
  rw [rowText_eq, List.append_assoc, List.append_assoc] at ran
  obtain ⟨st', first, _, ranHead, ranTail, -⟩ := Json.run_append_eq_some.1 ran
  rw [run_rowHead listable.feed] at ranHead
  cases ranHead
  obtain ⟨_, _, _, ranContent, -, -⟩ := Json.run_append_eq_some.1 ranTail
  exact noVt_of_run listable.content ranContent

/-! ## The listing -/

def listingTokens : List Row → List Token
  | [] => []
  | [row] => rowTokens row
  | row :: next :: rest => rowTokens row ++ .valueSeparator :: listingTokens (next :: rest)

/-- The rows, a comma between each two. -/
def rowsText (rows : List Row) : Bytes := List.intercalate (lit ",\n").bytes (rows.map rowText)

theorem run_comma : Json.run .between (lit ",\n").bytes = some (.between, [.valueSeparator]) := rfl

theorem rowsText_cons_cons (row next : Row) (rest : List Row) :
    rowsText (row :: next :: rest) =
      rowText row ++ ((lit ",\n").bytes ++ rowsText (next :: rest)) := by
  simp only [rowsText, List.map_cons, List.intercalate_cons_cons, List.append_assoc]

theorem run_rowsText {rows : List Row} (listable : ∀ row ∈ rows, Listable row)
    (noVt : ∀ row ∈ rows, 0x0B ∉ row.2) :
    Json.run .between (rowsText rows) = some (.between, listingTokens rows) := by
  induction rows with
  | nil => rfl
  | cons row rest ih =>
      have first := run_rowText (listable row List.mem_cons_self) (noVt row List.mem_cons_self)
      have others := ih (fun r member => listable r (List.mem_cons_of_mem _ member))
        (fun r member => noVt r (List.mem_cons_of_mem _ member))
      cases rest with
      | nil => simpa [rowsText, listingTokens] using first
      | cons next rest =>
          rw [rowsText_cons_cons]
          exact Json.run_append first (Json.run_append run_comma others)

theorem noVt_of_run_rowsText {rows : List Row} (listable : ∀ row ∈ rows, Listable row) {tail : Bytes}
    {st : LexState} {tokens : List Token}
    (ran : Json.run .between (rowsText rows ++ tail) = some (st, tokens)) :
    ∀ row ∈ rows, 0x0B ∉ row.2 := by
  induction rows generalizing tokens with
  | nil => simp
  | cons row rest ih =>
      have first := listable row List.mem_cons_self
      cases rest with
      | nil =>
          have own : 0x0B ∉ row.2 := noVt_of_run_rowText first (by simpa [rowsText] using ran)
          simpa using own
      | cons next rest =>
          rw [rowsText_cons_cons, List.append_assoc] at ran
          have own := noVt_of_run_rowText first ran
          obtain ⟨_, _, _, ranRow, ranRest, -⟩ := Json.run_append_eq_some.1 ran
          rw [run_rowText first own] at ranRow
          cases ranRow
          rw [List.append_assoc] at ranRest
          obtain ⟨_, _, _, ranComma, ranOthers, -⟩ := Json.run_append_eq_some.1 ranRest
          rw [run_comma] at ranComma
          cases ranComma
          have others := ih (fun r member => listable r (List.mem_cons_of_mem _ member)) ranOthers
          exact List.forall_mem_cons.2 ⟨own, others⟩

theorem run_headingText : Json.run .between headingText = some (.between,
    [.beginObject, .string (ascii "articles"), .nameSeparator, .beginArray]) := rfl

theorem listingText_eq (rows : List Row) :
    listingText rows = headingText ++ (rowsText rows ++ (lit "\n]\x7d\n").bytes) := by
  rw [listingText, List.append_assoc, rowsText]

def rowTree (row : Row) : Json.Value :=
  .object [(ascii "feed", .string row.1.bytes), (ascii "content", .string row.2)]

/-- The tree with exactly these rows. -/
def listingTree (rows : List Row) : Json.Value :=
  .object [(ascii "articles", .array (rows.map rowTree))]

theorem readsElements_rows (row : Row) (rest : List Row) (after : List Token) :
    Json.ReadsElements (listingTokens (row :: rest) ++ .endArray :: after)
      ((row :: rest).map rowTree) after := by
  have one (r : Row) (after : List Token) :
      Json.ReadsValue (rowTokens r ++ after) (rowTree r) after :=
    .object (.more .string (.last .string))
  induction rest generalizing row with
  | nil => exact .last (one row _)
  | cons next rest ih =>
      refine .more ?_ (ih next)
      simpa only [listingTokens, List.append_assoc, List.cons_append] using one row _

theorem denotes_listingText {rows : List Row} (nonempty : rows ≠ [])
    (listable : ∀ row ∈ rows, Listable row) (noVt : ∀ row ∈ rows, 0x0B ∉ row.2) :
    Json.Denotes (listingText rows) (listingTree rows) := by
  have closing : Json.run .between (lit "\n]\x7d\n").bytes =
      some (.between, [.endArray, .endObject]) := rfl
  have ran := Json.run_append run_headingText
    (Json.run_append (run_rowsText listable noVt) closing)
  rw [← listingText_eq] at ran
  refine ⟨_, by simp only [Json.lex, ran, LexState.finish, Option.map_some, List.append_nil]; rfl, ?_⟩
  obtain ⟨row, rest, rfl⟩ := List.exists_cons_of_ne_nil nonempty
  exact .object (.last (.array (readsElements_rows row rest [.endObject])))

theorem noVt_of_denotes {rows : List Row} (listable : ∀ row ∈ rows, Listable row) {v : Json.Value}
    (denotes : Json.Denotes (listingText rows) v) : ∀ row ∈ rows, 0x0B ∉ row.2 := by
  obtain ⟨ts, lexed, -⟩ := denotes
  unfold Json.lex at lexed
  cases ran : Json.run .between (listingText rows) with
  | none => simp [ran] at lexed
  | some result =>
      rw [listingText_eq] at ran
      obtain ⟨_, _, _, ranHeading, ranRest, -⟩ := Json.run_append_eq_some.1 ran
      rw [run_headingText] at ranHeading
      cases ranHeading
      exact noVt_of_run_rowsText listable ranRest

/-- The listing is the JSON text of its rows, and a JSON text at all, when no content has a
vertical tab in it. -/
theorem denotes_listingText_iff {rows : List Row} (nonempty : rows ≠ [])
    (listable : ∀ row ∈ rows, Listable row) :
    (Json.Denotes (listingText rows) (listingTree rows) ↔ ∀ row ∈ rows, 0x0B ∉ row.2) ∧
      ((∃ v, Json.Denotes (listingText rows) v) ↔ ∀ row ∈ rows, 0x0B ∉ row.2) :=
  ⟨⟨noVt_of_denotes listable, denotes_listingText nonempty listable⟩,
    fun ⟨_, denotes⟩ => noVt_of_denotes listable denotes,
    fun noVt => ⟨_, denotes_listingText nonempty listable noVt⟩⟩

/-! ## What get_articles answers with -/

section Answer

variable {json : Json.Parser} {req : HttpRequest} {user : CString} {dbVal : Bytes} {p : UfPair}
  {w : World}

theorem lets_of_valid {key : Bytes} (valid : isarticleValid (cstr key) = true) :
    ∀ b ∈ (cstr key).bytes, Lets b := by
  intro b member
  rw [isarticleValid_of_ne_nil (List.ne_nil_of_mem member)] at valid
  exact List.all_eq_true.1 valid b member

/-- The rows of valid feeds and valid keys. -/
theorem listable_rowsOf {feeds : List CString} {keys : List Bytes}
    (valid : ∀ f ∈ feeds, ValidName f)
    (articles : ∀ f ∈ feeds, ∀ key ∈ visited f keys, isarticleValid (cstr key) = true) :
    ∀ row ∈ rowsOf feeds keys, Listable row := by
  intro row member
  obtain ⟨f, inFeeds, inRows⟩ := List.mem_flatMap.1 member
  obtain ⟨key, visits, rfl⟩ := List.mem_map.1 inRows
  refine ⟨valid f inFeeds, fun b inTail => ?_⟩
  exact lets_of_valid (articles f inFeeds key visits) b (List.mem_of_mem_drop inTail)

/-- **When the listing is valid JSON.** With rows of alphanumeric feeds and of contents that are
not empty and were let through, the body is the JSON text of these rows exactly when there is no
vertical tab in a content; when there is one, it is no JSON text. -/
theorem listing_json_iff (get : req.method = .get) (locates : Locates req user)
    (isUser : ValidName user) (up : w.feederShutdown = false)
    (stored : w.uf user.bytes = some dbVal)
    (read : ufPairFromDbvalue json dbVal = .ok (some p)) (valid : ∀ f ∈ p.feeds, ValidName f)
    (inside : ∀ f ∈ p.feeds, ∀ key ∈ visited f w.fa.keys, Inside f key)
    (articles : ∀ f ∈ p.feeds, ∀ key ∈ visited f w.fa.keys, isarticleValid (cstr key) = true)
    (nonempty : rowsOf p.feeds w.fa.keys ≠ []) :
    ∃ res, exec succeed (getArticles json req) w = (.ok res, w) ∧ res.status = .status200 ∧
      (Json.Denotes res.body (listingTree (rowsOf p.feeds w.fa.keys)) ↔
        ∀ row ∈ rowsOf p.feeds w.fa.keys, 0x0B ∉ row.2) ∧
      ((∃ v, Json.Denotes res.body v) ↔ ∀ row ∈ rowsOf p.feeds w.fa.keys, 0x0B ∉ row.2) := by
  refine ⟨listing req (rowsOf p.feeds w.fa.keys), ?_, ?_, ?_⟩
  · have present : dbVal ≠ [] := by
      rintro rfl
      simp [ufPairFromDbvalue, json.parse_nil] at read
    exact (exec_lookup_found get locates isUser up stored present).trans
      (exec_listArticles read inside)
  · rw [listing, if_neg nonempty]
    exact respondJson_status _ _ _
  · rw [listing, if_neg nonempty, respondJson_body, List.take_length]
    exact denotes_listingText_iff nonempty (listable_rowsOf valid articles)

end Answer

/-- A subscription to `a` and `b`, and the content `x` submitted to `a`. -/
def plainWorld : World := (played [plainSubscribe, plainSubmission] [0, 0, 0, 1, 1]).2

theorem listing_json_plain : ∃ res,
    exec succeed (getArticles Json.reader askArticles) plainWorld = (.ok res, plainWorld) ∧
      Json.Denotes res.body (listingTree [(lit "a", ascii "x")]) := by
  have rows : rowsOf plainPair.feeds plainWorld.fa.keys = [(lit "a", ascii "x")] := by
    decide +kernel
  have stored : plainWorld.uf (lit "u").bytes = some (dbText plainPair) := by decide +kernel
  obtain ⟨res, answered, -, denotes, -⟩ := listing_json_iff (p := plainPair) rfl locates_askArticles
    (by decide) (by decide +kernel) stored read_plainPair (by decide) (by decide +kernel)
    (by decide +kernel) (by rw [rows]; decide)
  rw [rows] at denotes
  exact ⟨res, answered, denotes.2 (by decide)⟩

/-- A vertical tab, submitted to `a`. -/
def tabbedSubmission : Request :=
  (.submit, postFeed "a" "\x7b\"articles\":[\x7b\"content\":\"\\u000b\"\x7d]\x7d")

/-- It is accepted and listed as it is. -/
theorem vertical_tab_listed : ¬ ∀ (req : HttpRequest) (user : CString) (dbVal : Bytes) (p : UfPair)
    (w : World), req.method = .get → Locates req user → ValidName user →
      w.feederShutdown = false → w.uf user.bytes = some dbVal →
        ufPairFromDbvalue Json.reader dbVal = .ok (some p) → (∀ f ∈ p.feeds, ValidName f) →
          (∀ f ∈ p.feeds, ∀ key ∈ visited f w.fa.keys, Inside f key) →
            (∀ f ∈ p.feeds, ∀ key ∈ visited f w.fa.keys, isarticleValid (cstr key) = true) →
              rowsOf p.feeds w.fa.keys ≠ [] →
                ∃ res, exec succeed (getArticles Json.reader req) w = (.ok res, w) ∧
                  Json.Denotes res.body (listingTree (rowsOf p.feeds w.fa.keys)) := by
  intro all
  let w := (played [plainSubscribe, tabbedSubmission] [0, 0, 0, 1, 1]).2
  have rows : rowsOf plainPair.feeds w.fa.keys = [(lit "a", [0x0B])] := by decide +kernel
  have stored : w.uf (lit "u").bytes = some (dbText plainPair) := by decide +kernel
  have inside : ∀ f ∈ plainPair.feeds, ∀ key ∈ visited f w.fa.keys, Inside f key := by
    decide +kernel
  have articles : ∀ f ∈ plainPair.feeds, ∀ key ∈ visited f w.fa.keys,
      isarticleValid (cstr key) = true := by decide +kernel
  obtain ⟨res, answered, denotes⟩ := all askArticles (lit "u") _ plainPair w rfl locates_askArticles
    (by decide) (by decide +kernel) stored read_plainPair (by decide) inside articles
    (by rw [rows]; decide)
  have listed : exec succeed (getArticles Json.reader askArticles) w =
      (.ok (listing askArticles (rowsOf plainPair.feeds w.fa.keys)), w) :=
    (exec_lookup_found rfl locates_askArticles (by decide) (by decide +kernel) stored
      (dbText_ne_nil _)).trans (exec_listArticles read_plainPair inside)
  obtain rfl : listing askArticles (rowsOf plainPair.feeds w.fa.keys) = res :=
    Except.ok.inj (congrArg Prod.fst (listed.symm.trans answered))
  rw [listing, if_neg (by rw [rows]; decide), respondJson_body, List.take_length] at denotes
  have noVt := noVt_of_denotes (listable_rowsOf (by decide) articles) denotes
  rw [rows] at noVt
  exact absurd noVt (by decide)

end Feedserver.Serving
