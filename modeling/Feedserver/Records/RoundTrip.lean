/-
# Records.RoundTrip — which pairs are read back from their own text

`Arises` is every pair that requests can make: one that a payload is read as, then any
edits with names from payloads. `roundTrips_iff`: such a pair is read back, and written
again as the same text, exactly when none of its names needs an escape.

That plain names are enough is `fromDbvalue_dbText`. The converse takes the longest feed
`M` that needs an escape. Reading a string takes more text than a string with an escape
is long (`Json.weight`), so no line of a record is long enough for `M` but the one with the
URI, where the string does not stand behind `"name"` (`OnlyUri`). But every feed that is
read back does (`named_value`).
-/
import Feedserver.Records.Reading
import Feedserver.Records.Requests
import Mathlib.Data.Finset.Max

namespace Feedserver.Records

open Feedserver.Theory
open Feedserver.Source
open Json (Token LexState)

set_option autoImplicit false

/-! ## Where the names of a tree stand in its tokens -/

def memberTokens (n s : Bytes) : List Token := [.string n, .nameSeparator, .string s]

theorem memberTokens_here {n s : Bytes} {ts rest : List Token}
    (value : Json.ReadsValue ts (.string s) rest) :
    memberTokens n s <:+: .string n :: .nameSeparator :: ts := by
  cases value
  exact (List.prefix_append (memberTokens n s) rest).isInfix

theorem memberTokens_behind {n s m : Bytes} {ts : List Token} (inside : memberTokens n s <:+: ts) :
    memberTokens n s <:+: .string m :: .nameSeparator :: ts :=
  inside.trans ((List.suffix_cons _ _).trans (List.suffix_cons _ _)).isInfix

mutual

/-- A string member that the search finds stands behind its name. -/
theorem named_value {name : CString} {s : Bytes} {ts rest : List Token} {v : Json.Value} :
    Json.ReadsValue ts v rest → jsonFindObject name v = some (.string s) →
      ∃ n, name = cstr n ∧ memberTokens n s <:+: ts
  | .string, found | .integer, found | .double, found | .boolean, found | .null, found => by
      simp [jsonFindObject] at found
  | .emptyObject, found => by simp [jsonFindObject, findInMembers] at found
  | .emptyArray, found => by simp [jsonFindObject, findInValues] at found
  | .object inner, found => by
      obtain ⟨n, same, inside⟩ := named_members inner (by simpa [jsonFindObject] using found)
      exact ⟨n, same, inside.trans (List.suffix_cons _ _).isInfix⟩
  | .array inner, found => by
      obtain ⟨n, same, inside⟩ := named_elements inner (by simpa [jsonFindObject] using found)
      exact ⟨n, same, inside.trans (List.suffix_cons _ _).isInfix⟩

theorem named_members {name : CString} {s : Bytes} {ts rest : List Token}
    {ms : List (Bytes × Json.Value)} :
    Json.ReadsMembers ts ms rest → findInMembers name ms = some (.string s) →
      ∃ n, name = cstr n ∧ memberTokens n s <:+: ts
  | .last (n := n) value, found => by
      rw [findInMembers] at found
      split at found
      · rename_i same
        cases found
        exact ⟨n, same, memberTokens_here value⟩
      · split at found
        · rename_i inner
          obtain ⟨n', same, inside⟩ := named_value value (found ▸ inner)
          exact ⟨n', same, memberTokens_behind inside⟩
        · cases found
  | .more (n := n) value tail, found => by
      rw [findInMembers] at found
      split at found
      · rename_i same
        cases found
        exact ⟨n, same, memberTokens_here value⟩
      · split at found
        · rename_i inner
          obtain ⟨n', same, inside⟩ := named_value value (found ▸ inner)
          exact ⟨n', same, memberTokens_behind inside⟩
        · obtain ⟨n', same, inside⟩ := named_members tail found
          exact ⟨n', same, memberTokens_behind
            (inside.trans ((List.suffix_cons _ _).trans value.suffix).isInfix)⟩

theorem named_elements {name : CString} {s : Bytes} {ts rest : List Token}
    {vs : List Json.Value} :
    Json.ReadsElements ts vs rest → findInValues name vs = some (.string s) →
      ∃ n, name = cstr n ∧ memberTokens n s <:+: ts
  | .last value, found => by
      rw [findInValues] at found
      split at found
      · rename_i inner
        exact named_value value (found ▸ inner)
      · cases found
  | .more value tail, found => by
      rw [findInValues] at found
      split at found
      · rename_i inner
        exact named_value value (found ▸ inner)
      · obtain ⟨n', same, inside⟩ := named_elements tail found
        exact ⟨n', same, inside.trans ((List.suffix_cons _ _).trans value.suffix).isInfix⟩

end

/-! ## The tokens of the feeds -/

/-- In these tokens, a string that shows as `M` stands behind `"uri"` only. -/
def OnlyUri (M : CString) (ts : List Token) : Prop :=
  ∀ a s b, ts = a ++ .string s :: b → cstr s = M →
    ∃ a', a = a' ++ [.string (ascii "uri"), .nameSeparator]

theorem OnlyUri.append {M : CString} {x y : List Token} (first : OnlyUri M x)
    (second : OnlyUri M y) : OnlyUri M (x ++ y) := by
  intro a s b split shows
  rcases List.append_eq_append_iff.1 split with ⟨c, rfl, inside⟩ | ⟨c, inside, rest⟩
  · obtain ⟨a', rfl⟩ := second c s b inside shows
    exact ⟨x ++ a', by simp⟩
  · cases c with
    | nil =>
        obtain ⟨a', empty⟩ := second [] s b (by simpa using rest.symm) shows
        simp at empty
    | cons t c =>
        obtain ⟨rfl, -⟩ : Token.string s = t ∧ _ := by simpa using rest
        exact first a s c inside shows

theorem OnlyUri.of_absent {M : CString} {ts : List Token}
    (absent : ∀ s, Token.string s ∈ ts → cstr s ≠ M) : OnlyUri M ts :=
  fun a s b split shows => absurd shows (absent s (by simp [split]))

/-- A string that stands behind `"name"` does not show as `M`. -/
theorem OnlyUri.not_named {M : CString} {ts : List Token} {n s : Bytes} (only : OnlyUri M ts)
    (inside : memberTokens n s <:+: ts) (name : lit "name" = cstr n) : cstr s ≠ M := by
  intro shows
  obtain ⟨a, b, rfl⟩ := inside
  obtain ⟨a', same⟩ := only (a ++ [.string n, .nameSeparator]) s b (by simp [memberTokens]) shows
  have uri : n = ascii "uri" := by simpa using (List.append_inj' same rfl).2
  rw [uri] at name
  exact absurd name (by decide)

/-- A feed from whose text no string that shows as `M` can be read. -/
def Shorter (M f : CString) : Prop := Json.Plain f.bytes ∨ f.bytes.length ≤ M.bytes.length

section Line

variable {M f : CString} {tokens : List Token}

theorem absent_of_weight (escaped : ¬ Json.Plain M.bytes) {s : Bytes}
    (bound : Json.weight s ≤ M.bytes.length) : cstr s ≠ M :=
  fun shows => escaped (plain_of_cstr_eq bound shows)

theorem NameLine.absent (escaped : ¬ Json.Plain M.bytes) (shorter : Shorter M f)
    (line : NameLine f tokens) (s : Bytes) (read : Token.string s ∈ tokens) : cstr s ≠ M := by
  have noQuote : (0x22 : UInt8) ∉ [0x2C] := by decide
  obtain ⟨-, mid, t, rest, last, ranText, ranLine, rfl⟩ := Json.run_quoted noQuote line
  rcases List.mem_append.1 read with read | read
  · rcases shorter with plain | short
    · rw [Json.run_quoted_plain plain] at ranText
      cases ranText
      obtain rfl : s = f.bytes := by simpa using read
      rw [cstr_of_bytes]
      rintro rfl
      exact escaped plain
    · exact absent_of_weight escaped ((Json.quoted_weight ranText read).trans short)
  · exact absurd read (Json.run_no_quote ranLine (by decide) s)

theorem UriLine.absent {uri : CString} (escaped : ¬ Json.Plain M.bytes) (shorter : Shorter M f)
    (line : UriLine uri f tokens) :
    ∃ t rest, tokens = .string t :: rest ∧ ∀ s, Token.string s ∈ rest → cstr s ≠ M := by
  have noQuote : (0x22 : UInt8) ∉ [] := List.not_mem_nil
  obtain ⟨-, mid, t, rest, last, ranText, ranLine, rfl⟩ := Json.run_quoted noQuote line
  refine ⟨t, rest ++ last, rfl, ?_⟩
  intro s read
  rcases List.mem_append.1 read with read | read
  · rcases shorter with plain | short
    · rw [Json.run_quoted_plain plain] at ranText
      cases ranText
      simp at read
    · have inside : (LexState.text (uri.bytes ++ (lit "/").bytes)).InString := trivial
      rcases Json.run_inString inside ranText with
        ⟨-, empty⟩ | ⟨t', before, after, rest', text, same, ranAfter, -⟩
      · cases empty
      · cases same
        apply absent_of_weight escaped
        have bound := Json.run_weight ranAfter s read
        have length := congrArg List.length text
        simp only [List.length_append, List.length_cons, List.length_nil] at length
        simp only [LexState.cost] at bound
        omega
  · exact absurd read (Json.run_no_quote ranLine (by decide) s)

/-- The tokens of a line of the name, then the URI's, as a record has them. -/
theorem onlyUri_entry {uri : CString} {named located : List Token} (escaped : ¬ Json.Plain M.bytes)
    (shorter : Shorter M f) (isNamed : NameLine f named) (isLocated : UriLine uri f located) :
    OnlyUri M (named ++ [.string (ascii "uri"), .nameSeparator] ++ located) := by
  obtain ⟨t, rest, rfl, absent⟩ := isLocated.absent escaped shorter
  have located : OnlyUri M ([.string (ascii "uri"), .nameSeparator] ++ .string t :: rest) := by
    intro a s b split shows
    rcases a with _ | ⟨_, _ | ⟨_, _ | ⟨_, a⟩⟩⟩
    · obtain rfl : ascii "uri" = s := by simpa using (List.cons.inj split).1
      exact absurd (shows ▸ (by decide : Json.Plain (cstr (ascii "uri")).bytes)) escaped
    · simp at split
    · exact ⟨[], by simp at split; simp [split.1, split.2.1]⟩
    · have read : Token.string s ∈ rest := by
        simp only [List.cons_append, List.nil_append, List.cons.injEq] at split
        simp [split.2.2.2]
      exact absurd shows (absent s read)
  have whole := (OnlyUri.of_absent (isNamed.absent escaped shorter)).append located
  simpa using whole

end Line

theorem onlyUri_feeds {M : CString} (escaped : ¬ Json.Plain M.bytes) {feeds : List CString}
    (shorter : ∀ f ∈ feeds, Shorter M f) {st : LexState} {tokens : List Token}
    (ran : Json.run .between (feedsText feeds ++ (lit "]\n\x7d\n").bytes) = some (st, tokens)) :
    OnlyUri M tokens := by
  have plain (text : Bytes) (isPlain : Json.Plain (cstr text).bytes) : cstr text ≠ M := by
    rintro rfl
    exact escaped isPlain
  induction feeds generalizing st tokens with
  | nil =>
      have closing : Json.run .between (lit "]\n\x7d\n").bytes =
          some (.between, [.endArray, .endObject]) := rfl
      cases closing.symm.trans ran
      exact .of_absent (by simp)
  | cons feed others ih =>
      obtain ⟨named, located, comma, rest, isNamed, isLocated, noString, ranRest, rfl⟩ :=
        run_feeds_cons ran
      have opened : OnlyUri M [.beginObject, .string (ascii "name"), .nameSeparator] := by
        refine .of_absent fun s read => ?_
        obtain rfl : s = ascii "name" := by simpa using read
        exact plain _ (by decide)
      have entry := onlyUri_entry escaped (shorter feed List.mem_cons_self) isNamed isLocated
      have separator : OnlyUri M comma := .of_absent fun s read => absurd read (noString s)
      have following := ih (fun f member => shorter f (List.mem_cons_of_mem _ member)) ranRest
      exact opened.append (entry.append (separator.append following))

/-! ## The feeds that are read back -/

/-- A feed that was read from an array of values is a string that some value names. -/
theorem named_of_stored {values : List Json.Value} {uf uf' : UfPair}
    (stored : values.foldlM addStoredFeed uf = .ok uf') (f : CString) (member : f ∈ uf'.feeds) :
    f ∈ uf.feeds ∨ ∃ value ∈ values, ∃ s, jsonFindObject (lit "name") value = some (.string s) ∧
      cstr s = f := by
  refine Program.foldlM_invariant (I := fun uf' => ∀ f ∈ uf'.feeds, f ∈ uf.feeds ∨
    ∃ value ∈ values, ∃ s, jsonFindObject (lit "name") value = some (.string s) ∧ cstr s = f)
    ?_ (fun f member => .inl member) stored f member
  intro uf value uf' valueIn before added f member
  unfold addStoredFeed at added
  cases found : jsonFindObject (lit "name") value with
  | none => rw [found] at added; cases added
  | some jo =>
      rw [found] at added
      cases jo with
      | string s =>
          cases added
          by_cases old : f ∈ uf.feeds
          · exact before f old
          · refine .inr ⟨value, valueIn, s, found, ?_⟩
            change f ∈ (ufPairAddFeed uf (cstr s)).1.feeds at member
            unfold ufPairAddFeed at member
            split at member
            · exact absurd member old
            · have new : f ∈ uf.feeds ∨ f = cstr s := by
                simpa [vcVectorPushBack, vcVectorAppend] using member
              exact (new.resolve_left old).symm
      | _ => cases added

theorem nameTree_of_reads {uri name : CString} {v : Json.Value} {rest after : List Token}
    (reads : Json.ReadsValue (.beginObject :: .string (ascii "name") :: .nameSeparator ::
      .string name.bytes :: .valueSeparator :: .string (ascii "uri") :: .nameSeparator ::
      .string (uriOf uri name) :: .endObject :: rest) v after) :
    v = nameTree uri name ∧ after = rest := by
  cases reads with
  | object inner =>
      cases inner with
      | last value => cases value
      | more value others =>
          cases value
          cases others with
          | last value => cases value; exact ⟨rfl, rfl⟩
          | more value _ => cases value

/-- A record whose user is plain is its user, then the array of its feeds. -/
theorem tree_of_head {user : CString} {tokens : List Token} {v : Json.Value}
    (reads : Json.ReadsValue (headTokens user ++ tokens) v []) :
    ∃ feeds members after, v = .object ((ascii "user", nameTree USER_URI user) ::
      (ascii "feeds", feeds) :: members) ∧ Json.ReadsValue (.beginArray :: tokens) feeds after := by
  simp only [headTokens, List.cons_append, List.nil_append] at reads
  cases reads with
  | object inner =>
      cases inner with
      | last value =>
          obtain ⟨-, impossible⟩ := nameTree_of_reads value
          cases impossible
      | more value others =>
          obtain ⟨rfl, same⟩ := nameTree_of_reads value
          cases same
          cases others with
          | last value => exact ⟨_, [], _, rfl, value⟩
          | more value _ => exact ⟨_, _, _, rfl, value⟩

theorem find_feeds_head (user : CString) (feeds : Json.Value) (members : List (Bytes × Json.Value)) :
    jsonFindObject (lit "feeds") (.object ((ascii "user", nameTree USER_URI user) ::
      (ascii "feeds", feeds) :: members)) = some feeds := by
  have notUser : lit "feeds" ≠ cstr (ascii "user") := by decide
  have notName : lit "feeds" ≠ cstr (ascii "name") := by decide
  have notUri : lit "feeds" ≠ cstr (ascii "uri") := by decide
  have isFeeds : lit "feeds" = cstr (ascii "feeds") := rfl
  simp only [nameTree, jsonFindObject, findInMembers, if_neg notUser, if_neg notName,
    if_neg notUri, if_pos isFeeds]

/-- Every feed read back stands behind `"name"` in the text of the feeds. -/
theorem feeds_of_fromDbvalue {json : Json.Parser} {p q : UfPair} (plain : Json.Plain p.user.bytes)
    (read : ufPairFromDbvalue json (dbText p) = .ok (some q)) :
    ∃ tokens, Json.run .between (feedsText p.feeds ++ (lit "]\n\x7d\n").bytes) =
        some (.between, tokens) ∧
      ∀ f ∈ q.feeds, ∃ n s, lit "name" = cstr n ∧ memberTokens n s <:+: tokens ∧ cstr s = f := by
  cases parsed : json.parse (dbText p) with
  | none => simp [ufPairFromDbvalue, parsed] at read
  | some v =>
      obtain ⟨ts, ran, reads⟩ := tokens_of_denotes ((json.parse_eq_some_iff _ _).1 parsed)
      rw [dbText, List.append_assoc] at ran
      obtain ⟨st, _, tokens, ranHead, ranFeeds, rfl⟩ := Json.run_append_eq_some.1 ran
      cases (run_headText plain).symm.trans ranHead
      obtain ⟨feeds, members, after, rfl, readsFeeds⟩ := tree_of_head reads
      refine ⟨tokens, ranFeeds, ?_⟩
      intro f member
      have user := find_user_dbTree p
      have isUser : lit "user" = cstr (ascii "user") := rfl
      simp only [ufPairFromDbvalue, parsed] at read
      rw [jsonFindObject, findInMembers, if_pos isUser, Option.bind_some, find_name_nameTree] at read
      simp only [storedPair, stringPtr, find_feeds_head, deref] at read
      cases readsFeeds with
      | emptyArray =>
          cases read
          simp [ufPairNew] at member
      | array elements =>
          rename_i values
          have stored : values.foldlM addStoredFeed (ufPairNew (cstr p.user.bytes) none) = .ok q := by
            cases folded : values.foldlM addStoredFeed (ufPairNew (cstr p.user.bytes) none) with
            | error reason =>
                change (Except.map some (values.foldlM addStoredFeed _)) = _ at read
                rw [folded] at read
                cases read
            | ok q' =>
                change (Except.map some (values.foldlM addStoredFeed _)) = _ at read
                rw [folded] at read
                cases read
                rfl
          rcases named_of_stored stored f member with nothing | ⟨value, valueIn, s, found, shows⟩
          · simp [ufPairNew] at nothing
          · obtain ⟨ts, rest, inside, readsValue⟩ := elements.element valueIn
            obtain ⟨n, name, infix_⟩ := named_value readsValue found
            exact ⟨n, s, name, infix_.trans inside.isInfix, shows⟩

/-! ## Round trips -/

/-- A name that some payload brings. -/
def Offered (json : Json.Parser) (name : CString) : Prop :=
  ∃ payload p, ufPairFromRequest json payload = .ok (some p) ∧ (name = p.user ∨ name ∈ p.feeds)

/-- The pairs that payloads, and edits with the names of payloads, make. -/
inductive Arises (json : Json.Parser) : UfPair → Prop
  | request {payload : Bytes} {p : UfPair}
      (parsed : ufPairFromRequest json payload = .ok (some p)) : Arises json p
  | add {p : UfPair} {name : CString} (before : Arises json p) (offered : Offered json name) :
      Arises json (ufPairAddFeed p name).1
  | delete {p : UfPair} {name : CString} (before : Arises json p) (offered : Offered json name) :
      Arises json (ufPairDeleteFeed p name).1

theorem Arises.nodup {json : Json.Parser} {p : UfPair} (arises : Arises json p) : p.feeds.Nodup := by
  induction arises with
  | request parsed =>
      obtain ⟨user, feeds, -, rfl⟩ := fromRequest_eq_some_iff.1 parsed
      rw [requested_eq]
      exact UniqueList.nodup _
  | @add p name _ _ ih =>
      obtain ⟨feeds, pair⟩ := exists_pairOf ih
      rw [pair, ufPairAddFeed_pairOf]
      exact (feeds.add name).nodup
  | @delete p name _ _ ih =>
      obtain ⟨feeds, pair⟩ := exists_pairOf ih
      rw [pair, ufPairDeleteFeed_pairOf]
      exact (feeds.remove name).nodup

/-- The pair is read back from its text, and written again as that text. -/
def RoundTrips (json : Json.Parser) (p : UfPair) : Prop :=
  ∃ q, ufPairFromDbvalue json (encode p) = .ok (some q) ∧ q.user = p.user ∧ q.feeds = p.feeds ∧
    encode q = encode p

theorem exists_longest {names : List CString} {P : CString → Prop} {f : CString}
    (member : f ∈ names) (holds : P f) :
    ∃ M ∈ names, P M ∧ ∀ g ∈ names, P g → g.bytes.length ≤ M.bytes.length := by
  classical
  obtain ⟨M, inside, longest⟩ := (names.toFinset.filter P).exists_max_image
    (fun g => g.bytes.length) ⟨f, by simp [member, holds]⟩
  obtain ⟨there, isP⟩ : M ∈ names ∧ P M := by simpa using inside
  exact ⟨M, there, isP, fun g named isG => longest g (by simp [named, isG])⟩

theorem plainNames_of_read {json : Json.Parser} {p q : UfPair}
    (read : ufPairFromDbvalue json (dbText p) = .ok (some q)) (user : q.user = p.user)
    (feeds : q.feeds = p.feeds) : PlainNames p := by
  have plainUser := plain_of_user_kept read user
  refine ⟨plainUser, ?_⟩
  by_contra some_
  push Not at some_
  obtain ⟨f, member, notPlain⟩ := some_
  obtain ⟨M, named, escaped, longest⟩ :=
    exists_longest (P := fun g => ¬ Json.Plain g.bytes) member notPlain
  obtain ⟨tokens, ran, stands⟩ := feeds_of_fromDbvalue plainUser read
  have only : OnlyUri M tokens := by
    refine onlyUri_feeds escaped (fun g there => ?_) ran
    by_cases plain : Json.Plain g.bytes
    · exact .inl plain
    · exact .inr (longest g there plain)
  obtain ⟨n, s, name, inside, shows⟩ := stands M (feeds ▸ named)
  exact only.not_named inside name shows

/-- **Decoding undoes encoding for plain names, and for no others.** -/
theorem roundTrips_iff {json : Json.Parser} {p : UfPair} (arises : Arises json p) :
    RoundTrips json p ↔ PlainNames p := by
  constructor
  · rintro ⟨q, read, user, feeds, -⟩
    rw [encode_eq] at read
    exact plainNames_of_read read user feeds
  · rintro ⟨plainUser, plainFeeds⟩
    refine ⟨p, ?_, rfl, rfl, rfl⟩
    rw [encode_eq]
    exact fromDbvalue_dbText json plainUser plainFeeds arises.nodup

def barPayload : Bytes := ascii "\x7b\"user\":\"foo\",\"feeds\":[\"bar\",\"baz\"]\x7d"

theorem roundTrips_bar : RoundTrips Json.reader ⟨lit "foo", [lit "bar", lit "baz"]⟩ := by
  have parsed : ufPairFromRequest Json.reader barPayload =
      .ok (some ⟨lit "foo", [lit "bar", lit "baz"]⟩) := by decide +kernel
  exact (roundTrips_iff (.request parsed)).2 (by decide)

/-- A feed with a quotation mark in its name. -/
def quotePayload : Bytes := ascii "\x7b\"user\":\"u\",\"feeds\":\"a\\\"b\"\x7d"

theorem quote_not_read_back : ¬ ∀ (json : Json.Parser) (p : UfPair), Arises json p →
    RoundTrips json p := by
  intro all
  have parsed : ufPairFromRequest Json.reader quotePayload =
      .ok (some ⟨lit "u", [lit "a\"b"]⟩) := by decide +kernel
  obtain ⟨q, read, -⟩ := all Json.reader _ (.request parsed)
  have unreadable : ufPairFromDbvalue Json.reader (encode ⟨lit "u", [lit "a\"b"]⟩) = .ok none := by
    decide +kernel
  rw [unreadable] at read
  cases read

end Feedserver.Records
