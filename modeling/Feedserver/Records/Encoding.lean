/-
# Records.Encoding — the text of a user record, and reading it back

`dbText p` is the string that `uf_pair_to_dbvalue` leaves in its builder for the two URIs
the server uses (`builds_toDbvalue`). A name needs no escape when it is `Json.Plain`; for
plain names the text is the JSON text of `dbTree p` (`denotes_dbText`) and
`uf_pair_from_dbvalue` returns the pair it was made from (`fromDbvalue_dbText`), for any
list of distinct feeds.
-/
import Feedserver.Source.FeedServer

namespace Feedserver.Records

open Feedserver.Theory
open Feedserver.Source

set_option autoImplicit false

/-! ## The text -/

def headText (user : CString) : Bytes :=
  (lit "\x7b\n\"user\": \x7b\n\"name\": \"").bytes ++ user.bytes ++ (lit "\",\n\"uri\": \"").bytes ++
    USER_URI.bytes ++ (lit "/").bytes ++ user.bytes ++ (lit "\"\n\x7d,\n\"feeds\": [\n").bytes

def feedText (feed : CString) : Bytes :=
  (lit "\x7b\n\"name\": \"").bytes ++ feed.bytes ++ (lit "\",\n\"uri\": \"").bytes ++
    FEED_URI.bytes ++ (lit "/").bytes ++ feed.bytes ++ (lit "\"\n\x7d\n").bytes

def feedsText : List CString → Bytes
  | [] => []
  | feed :: rest =>
      feedText feed ++ (if rest = [] then [] else (lit ",\n").bytes) ++ feedsText rest

def dbText (p : UfPair) : Bytes :=
  headText p.user ++ feedsText p.feeds ++ (lit "]\n\x7d\n").bytes

theorem Builds.appendFeeds {s : Bytes} (feeds : List CString) {vs : VcVector UInt8}
    (builds : Builds vs s) :
    Builds (Source.appendFeeds FEED_URI feeds vs) (s ++ feedsText feeds) := by
  induction feeds generalizing vs s with
  | nil => simpa [Source.appendFeeds, feedsText] using builds
  | cons feed rest ih =>
      have one := ((((((builds.append (lit "\x7b\n\"name\": \"")).append feed).append
        (lit "\",\n\"uri\": \"")).append FEED_URI).append (lit "/")).append feed).append
        (lit "\"\n\x7d\n")
      simp only [Source.appendFeeds, feedsText]
      by_cases last : rest = []
      · simpa [last, feedText, List.append_assoc] using ih one
      · simpa [last, feedText, List.append_assoc] using ih (one.append (lit ",\n"))

theorem builds_toDbvalue (p : UfPair) : Builds (ufPairToDbvalue p USER_URI FEED_URI) (dbText p) := by
  have head := ((((((builds_create.append (lit "\x7b\n\"user\": \x7b\n\"name\": \"")).append
    p.user).append (lit "\",\n\"uri\": \"")).append USER_URI).append (lit "/")).append
    p.user).append (lit "\"\n\x7d,\n\"feeds\": [\n")
  have whole := (Builds.appendFeeds p.feeds head).append (lit "]\n\x7d\n")
  simpa [ufPairToDbvalue, dbText, headText] using whole

theorem headText_nulFree (user : CString) : (0 : UInt8) ∉ headText user := by
  simp only [headText, List.mem_append, not_or]
  exact ⟨⟨⟨⟨⟨⟨CString.nulFree _, user.nulFree⟩, CString.nulFree _⟩, CString.nulFree _⟩,
    CString.nulFree _⟩, user.nulFree⟩, CString.nulFree _⟩

theorem feedText_nulFree (feed : CString) : (0 : UInt8) ∉ feedText feed := by
  simp only [feedText, List.mem_append, not_or]
  exact ⟨⟨⟨⟨⟨⟨CString.nulFree _, feed.nulFree⟩, CString.nulFree _⟩, CString.nulFree _⟩,
    CString.nulFree _⟩, feed.nulFree⟩, CString.nulFree _⟩

theorem feedsText_nulFree (feeds : List CString) : (0 : UInt8) ∉ feedsText feeds := by
  induction feeds with
  | nil => simp [feedsText]
  | cons feed rest ih =>
      simp only [feedsText, List.mem_append, not_or]
      refine ⟨⟨feedText_nulFree feed, ?_⟩, ih⟩
      split
      · simp
      · exact CString.nulFree _

theorem dbText_nulFree (p : UfPair) : (0 : UInt8) ∉ dbText p := by
  simp only [dbText, List.mem_append, not_or]
  exact ⟨⟨headText_nulFree _, feedsText_nulFree _⟩, CString.nulFree _⟩

/-- What `Put` is given: the builder's string, without its terminator. -/
theorem begin_toDbvalue (p : UfPair) :
    (vcStringBegin (ufPairToDbvalue p USER_URI FEED_URI)).bytes = dbText p :=
  (builds_toDbvalue p).begin_ (dbText_nulFree p)

/-- The string that is put for a pair. -/
def encode (p : UfPair) : Bytes := (vcStringBegin (ufPairToDbvalue p USER_URI FEED_URI)).bytes

theorem encode_eq (p : UfPair) : encode p = dbText p := begin_toDbvalue p

theorem dbText_ne_nil (p : UfPair) : dbText p ≠ [] := by
  have opening : (lit "\x7b\n\"user\": \x7b\n\"name\": \"").bytes ≠ [] := by decide
  simp [dbText, headText, opening]

/-! ## Its tokens -/

open Json (Token LexState)

def uriOf (uri name : CString) : Bytes := uri.bytes ++ (lit "/").bytes ++ name.bytes

def headTokens (user : CString) : List Token :=
  [.beginObject, .string (ascii "user"), .nameSeparator,
    .beginObject, .string (ascii "name"), .nameSeparator, .string user.bytes, .valueSeparator,
    .string (ascii "uri"), .nameSeparator, .string (uriOf USER_URI user), .endObject,
    .valueSeparator, .string (ascii "feeds"), .nameSeparator, .beginArray]

def feedTokens (feed : CString) : List Token :=
  [.beginObject, .string (ascii "name"), .nameSeparator, .string feed.bytes, .valueSeparator,
    .string (ascii "uri"), .nameSeparator, .string (uriOf FEED_URI feed), .endObject]

def feedsTokens : List CString → List Token
  | [] => []
  | feed :: rest =>
      feedTokens feed ++ (if rest = [] then [] else [.valueSeparator]) ++ feedsTokens rest

/-- Inside a string, a URI and a plain name are read back as themselves. -/
theorem run_uri (uri : CString) {name : CString} (plainUri : Json.Plain uri.bytes)
    (plain : Json.Plain name.bytes) :
    Json.run (.text []) (uri.bytes ++ (lit "/").bytes ++ name.bytes) =
      some (.text (uriOf uri name), []) := by
  refine Json.run_plain (s := []) fun b member => ?_
  simp only [List.mem_append] at member
  rcases member with (member | member) | member
  · exact plainUri b member
  · exact (by decide : Json.Plain (lit "/").bytes) b member
  · exact plain b member

theorem run_headText {user : CString} (plain : Json.Plain user.bytes) :
    Json.run .between (headText user) = some (.between, headTokens user) := by
  have opening : Json.run .between (lit "\x7b\n\"user\": \x7b\n\"name\": \"").bytes = some (.text [],
      [.beginObject, .string (ascii "user"), .nameSeparator, .beginObject,
        .string (ascii "name"), .nameSeparator]) := rfl
  have name := Json.run_append opening (Json.run_plain (s := []) plain)
  have middle : Json.run (.text user.bytes) (lit "\",\n\"uri\": \"").bytes = some (.text [],
      [.string user.bytes, .valueSeparator, .string (ascii "uri"), .nameSeparator]) := rfl
  have uri := run_uri USER_URI (by decide) plain
  have closing : Json.run (.text (uriOf USER_URI user)) (lit "\"\n\x7d,\n\"feeds\": [\n").bytes =
      some (.between, [.string (uriOf USER_URI user), .endObject, .valueSeparator,
        .string (ascii "feeds"), .nameSeparator, .beginArray]) := rfl
  have whole := Json.run_append (Json.run_append (Json.run_append name middle) uri) closing
  simpa only [headText, headTokens, List.append_assoc, List.nil_append, List.cons_append] using whole

theorem run_feedText {feed : CString} (plain : Json.Plain feed.bytes) :
    Json.run .between (feedText feed) = some (.between, feedTokens feed) := by
  have opening : Json.run .between (lit "\x7b\n\"name\": \"").bytes = some (.text [],
      [.beginObject, .string (ascii "name"), .nameSeparator]) := rfl
  have name := Json.run_append opening (Json.run_plain (s := []) plain)
  have middle : Json.run (.text feed.bytes) (lit "\",\n\"uri\": \"").bytes = some (.text [],
      [.string feed.bytes, .valueSeparator, .string (ascii "uri"), .nameSeparator]) := rfl
  have uri := run_uri FEED_URI (by decide) plain
  have closing : Json.run (.text (uriOf FEED_URI feed)) (lit "\"\n\x7d\n").bytes =
      some (.between, [.string (uriOf FEED_URI feed), .endObject]) := rfl
  have whole := Json.run_append (Json.run_append (Json.run_append name middle) uri) closing
  simpa only [feedText, feedTokens, List.append_assoc, List.nil_append, List.cons_append] using whole

theorem run_feedsText {feeds : List CString} (plain : ∀ f ∈ feeds, Json.Plain f.bytes) :
    Json.run .between (feedsText feeds) = some (.between, feedsTokens feeds) := by
  induction feeds with
  | nil => rfl
  | cons feed rest ih =>
      have first := run_feedText (plain feed List.mem_cons_self)
      have others := ih fun f member => plain f (List.mem_cons_of_mem _ member)
      have comma : Json.run .between (lit ",\n").bytes = some (.between, [.valueSeparator]) := rfl
      simp only [feedsText, feedsTokens]
      by_cases last : rest = []
      · simpa [last] using Json.run_append first others
      · simpa [last] using Json.run_append (Json.run_append first comma) others

theorem lex_dbText {p : UfPair} (plainUser : Json.Plain p.user.bytes)
    (plainFeeds : ∀ f ∈ p.feeds, Json.Plain f.bytes) :
    Json.lex (dbText p) =
      some (headTokens p.user ++ feedsTokens p.feeds ++ [.endArray, .endObject]) := by
  have closing : Json.run .between (lit "]\n\x7d\n").bytes =
      some (.between, [.endArray, .endObject]) := rfl
  have ran := Json.run_append
    (Json.run_append (run_headText plainUser) (run_feedsText plainFeeds)) closing
  have ran : Json.run .between (dbText p) = _ := ran
  simp [Json.lex, ran, LexState.finish]

/-! ## Its tree -/

def nameTree (uri name : CString) : Json.Value :=
  .object [(ascii "name", .string name.bytes), (ascii "uri", .string (uriOf uri name))]

def dbTree (p : UfPair) : Json.Value :=
  .object [(ascii "user", nameTree USER_URI p.user),
    (ascii "feeds", .array (p.feeds.map (nameTree FEED_URI)))]

theorem readsValue_feed (feed : CString) (rest : List Token) :
    Json.ReadsValue (feedTokens feed ++ rest) (nameTree FEED_URI feed) rest :=
  .object (.more .string (.last .string))

theorem readsElements_feeds (feed : CString) (others : List CString) (rest : List Token) :
    Json.ReadsElements (feedsTokens (feed :: others) ++ .endArray :: rest)
      ((feed :: others).map (nameTree FEED_URI)) rest := by
  induction others generalizing feed with
  | nil => exact .last (by simpa [feedsTokens] using readsValue_feed feed _)
  | cons next others ih =>
      refine .more ?_ (ih next)
      simpa [feedsTokens, List.append_assoc] using readsValue_feed feed _

theorem readsValue_feeds (feeds : List CString) (rest : List Token) :
    Json.ReadsValue (.beginArray :: feedsTokens feeds ++ .endArray :: rest)
      (.array (feeds.map (nameTree FEED_URI))) rest := by
  cases feeds with
  | nil => exact .emptyArray
  | cons feed others => exact .array (readsElements_feeds feed others rest)

theorem denotes_dbText {p : UfPair} (plainUser : Json.Plain p.user.bytes)
    (plainFeeds : ∀ f ∈ p.feeds, Json.Plain f.bytes) : Json.Denotes (dbText p) (dbTree p) := by
  refine ⟨_, lex_dbText plainUser plainFeeds, ?_⟩
  have user (rest : List Token) : Json.ReadsValue
      (.beginObject :: .string (ascii "name") :: .nameSeparator :: .string p.user.bytes ::
        .valueSeparator :: .string (ascii "uri") :: .nameSeparator ::
        .string (uriOf USER_URI p.user) :: .endObject :: rest) (nameTree USER_URI p.user) rest :=
    .object (.more .string (.last .string))
  have feeds := readsValue_feeds p.feeds [.endObject]
  simpa [headTokens, dbTree] using Json.ReadsValue.object (.more (user _) (.last feeds))

/-! ## Reading it back -/

theorem find_user_dbTree (p : UfPair) :
    jsonFindObject (lit "user") (dbTree p) = some (nameTree USER_URI p.user) := by
  have : lit "user" = cstr (ascii "user") := rfl
  simp [dbTree, jsonFindObject, findInMembers, this]

theorem find_name_nameTree (uri name : CString) :
    jsonFindObject (lit "name") (nameTree uri name) = some (.string name.bytes) := by
  have : lit "name" = cstr (ascii "name") := rfl
  simp [nameTree, jsonFindObject, findInMembers, this]

theorem find_feeds_dbTree (p : UfPair) :
    jsonFindObject (lit "feeds") (dbTree p) =
      some (.array (p.feeds.map (nameTree FEED_URI))) := by
  have notUser : lit "feeds" ≠ cstr (ascii "user") := by decide
  have notName : lit "feeds" ≠ cstr (ascii "name") := by decide
  have notUri : lit "feeds" ≠ cstr (ascii "uri") := by decide
  have isFeeds : lit "feeds" = cstr (ascii "feeds") := rfl
  simp only [dbTree, nameTree, jsonFindObject, findInMembers, if_neg notUser, if_neg notName,
    if_neg notUri, if_pos isFeeds]

theorem addStoredFeed_nameTree (uf : UfPair) (feed : CString) :
    addStoredFeed uf (nameTree FEED_URI feed) = .ok (ufPairAddFeed uf feed).1 := by
  have added : addStoredFeed uf (nameTree FEED_URI feed) =
      .ok (ufPairAddFeed uf (cstr feed.bytes)).1 := by
    simp only [addStoredFeed, find_name_nameTree]
    rfl
  rw [added, cstr_of_bytes]

/-- `uf_pair_add_feed` for one name after another. -/
def addFeeds (uf : UfPair) (names : List CString) : UfPair :=
  names.foldl (fun uf name => (ufPairAddFeed uf name).1) uf

theorem foldlM_addStoredFeed (uf : UfPair) (feeds : List CString) :
    (feeds.map (nameTree FEED_URI)).foldlM addStoredFeed uf = .ok (addFeeds uf feeds) := by
  induction feeds generalizing uf with
  | nil => rfl
  | cons feed rest ih =>
      rw [List.map_cons, List.foldlM_cons, addStoredFeed_nameTree]
      exact ih _

theorem ufPairAddFeed_of_not_mem {uf : UfPair} {feed : CString} (absent : feed ∉ uf.feeds) :
    ufPairAddFeed uf feed = (⟨uf.user, uf.feeds ++ [feed]⟩, true) := by
  have : ¬ uf.feeds.any (fun name => name = feed) = true := by
    simp only [List.any_eq_true, decide_eq_true_eq]
    rintro ⟨name, member, rfl⟩
    exact absent member
  rw [ufPairAddFeed, if_neg this]
  rfl

theorem ufPairAddFeed_of_mem {uf : UfPair} {feed : CString} (present : feed ∈ uf.feeds) :
    ufPairAddFeed uf feed = (uf, false) := by
  rw [ufPairAddFeed, if_pos (by simpa using present)]

theorem addFeeds_of_nodup (uf : UfPair) {names : List CString}
    (nodup : (uf.feeds ++ names).Nodup) : addFeeds uf names = ⟨uf.user, uf.feeds ++ names⟩ := by
  induction names generalizing uf with
  | nil => simp [addFeeds]
  | cons name rest ih =>
      have absent : name ∉ uf.feeds := fun member =>
        (List.nodup_append.1 nodup).2.2 name member name List.mem_cons_self rfl
      have split : uf.feeds ++ name :: rest = uf.feeds ++ [name] ++ rest := by simp
      rw [addFeeds, List.foldl_cons, ufPairAddFeed_of_not_mem absent]
      rw [split] at nodup ⊢
      exact ih ⟨uf.user, uf.feeds ++ [name]⟩ nodup

/-- The stored text of a pair with plain names is read back as that pair. -/
theorem fromDbvalue_dbText (json : Json.Parser) {p : UfPair} (plainUser : Json.Plain p.user.bytes)
    (plainFeeds : ∀ f ∈ p.feeds, Json.Plain f.bytes) (nodup : p.feeds.Nodup) :
    ufPairFromDbvalue json (dbText p) = .ok (some p) := by
  have parsed := json.parse_of_denotes (denotes_dbText plainUser plainFeeds)
  have user := find_user_dbTree p
  have feeds := find_feeds_dbTree p
  have rebuilt : addFeeds (ufPairNew p.user none) p.feeds = p :=
    addFeeds_of_nodup (ufPairNew p.user none) (by simpa [ufPairNew] using nodup)
  have folded := foldlM_addStoredFeed (ufPairNew p.user none) p.feeds
  rw [rebuilt] at folded
  simp only [dbTree] at parsed user feeds
  simp only [ufPairFromDbvalue, parsed, user, Option.bind_some, find_name_nameTree]
  have stored : storedPair (.object [(ascii "user", nameTree USER_URI p.user),
      (ascii "feeds", .array (p.feeds.map (nameTree FEED_URI)))]) (.string p.user.bytes) =
      .ok p := by
    simp only [storedPair, stringPtr, cstr_of_bytes, feeds, deref]
    exact folded
  rw [stored]
  rfl

end Feedserver.Records
