/-
# Records.Reading — what a record says when it can be read, for names of any bytes

A name stands in a record twice, on a line of its own each time: as it is, and behind its
URI. `run_head`, `run_feeds_cons` and `run_entry` take the tokens of a text apart at these
lines; what is read between them is `Json.run_quoted`.

* `user_of_fromDbvalue`: the user of a readable record is the string read from the front of
  the name that was pasted.
* `user_kept`: so a verbatim name is read back;
* `plain_of_user_kept`: and a name that is read back needs no escape.
* `eq_of_read`: a record of verbatim names that can be read is read as its pair.
-/
import Feedserver.Records.Encoding
import Feedserver.Theory.JsonQuoting

namespace Feedserver.Records

open Feedserver.Theory
open Feedserver.Source
open Json (Token LexState)

set_option autoImplicit false

/-! ## Lines -/

/-- A name and its URI, from behind the first quotation mark to the end of the second line. -/
def entryText (uri name : CString) : Bytes :=
  name.bytes ++ 0x22 :: ([0x2C] ++ [0x0A]) ++ (lit "\"uri\": \"").bytes ++
    (uri.bytes ++ (lit "/").bytes) ++ (name.bytes ++ 0x22 :: ([] ++ [0x0A]))

theorem headText_eq (user : CString) :
    headText user = (lit "\x7b\n\"user\": \x7b\n\"name\": \"").bytes ++ entryText USER_URI user ++
      (lit "\x7d,\n\"feeds\": [\n").bytes := by
  have first : (lit "\",\n\"uri\": \"").bytes =
      0x22 :: ([0x2C] ++ [0x0A]) ++ (lit "\"uri\": \"").bytes := by decide
  have second : (lit "\"\n\x7d,\n\"feeds\": [\n").bytes =
      0x22 :: ([] ++ [0x0A]) ++ (lit "\x7d,\n\"feeds\": [\n").bytes := by decide
  simp only [headText, entryText, first, second, List.append_assoc, List.cons_append]

theorem feedText_eq (feed : CString) :
    feedText feed = (lit "\x7b\n\"name\": \"").bytes ++ entryText FEED_URI feed ++
      (lit "\x7d\n").bytes := by
  have first : (lit "\",\n\"uri\": \"").bytes =
      0x22 :: ([0x2C] ++ [0x0A]) ++ (lit "\"uri\": \"").bytes := by decide
  have second : (lit "\"\n\x7d\n").bytes = 0x22 :: ([] ++ [0x0A]) ++ (lit "\x7d\n").bytes := by
    decide
  simp only [feedText, entryText, first, second, List.append_assoc, List.cons_append]

/-- The tokens read from the line of the name, behind its first quotation mark. -/
def NameLine (name : CString) (tokens : List Token) : Prop :=
  Json.run (.text []) (name.bytes ++ 0x22 :: ([0x2C] ++ [0x0A])) = some (.between, tokens)

/-- The same of the line of its URI. -/
def UriLine (uri name : CString) (tokens : List Token) : Prop :=
  Json.run (.text (uri.bytes ++ (lit "/").bytes)) (name.bytes ++ 0x22 :: ([] ++ [0x0A])) =
    some (.between, tokens)

theorem run_entry {uri name : CString} {more : Bytes} {st : LexState} {tokens : List Token}
    (plainUri : Json.Plain (uri.bytes ++ (lit "/").bytes))
    (ran : Json.run (.text []) (entryText uri name ++ more) = some (st, tokens)) :
    ∃ named located rest, NameLine name named ∧ UriLine uri name located ∧
      Json.run .between more = some (st, rest) ∧
      tokens = named ++ [.string (ascii "uri"), .nameSeparator] ++ located ++ rest := by
  have noQuote : (0x22 : UInt8) ∉ [0x2C] := by decide
  rw [entryText] at ran
  obtain ⟨st₄, _, rest, ran₄, ranMore, rfl⟩ := Json.run_append_eq_some.1 ran
  obtain ⟨st₃, _, located, ran₃, ranLocated, rfl⟩ := Json.run_append_eq_some.1 ran₄
  obtain ⟨st₂, _, _, ran₂, ranUri, rfl⟩ := Json.run_append_eq_some.1 ran₃
  obtain ⟨st₁, named, _, ranNamed, ranOpening, rfl⟩ := Json.run_append_eq_some.1 ran₂
  obtain ⟨rfl, -⟩ := Json.run_quoted noQuote ranNamed
  have opening : Json.run .between (lit "\"uri\": \"").bytes =
      some (.text [], [.string (ascii "uri"), .nameSeparator]) := rfl
  cases opening.symm.trans ranOpening
  cases (Json.run_plain plainUri).symm.trans ranUri
  have noQuote' : (0x22 : UInt8) ∉ [] := List.not_mem_nil
  obtain ⟨rfl, -⟩ := Json.run_quoted noQuote' ranLocated
  exact ⟨named, located, rest, ranNamed, ranLocated, ranMore, by simp⟩

theorem run_head {user : CString} {more : Bytes} {st : LexState} {tokens : List Token}
    (ran : Json.run .between (headText user ++ more) = some (st, tokens)) :
    ∃ named located rest, NameLine user named ∧ UriLine USER_URI user located ∧
      Json.run .between more = some (st, rest) ∧
      tokens = [.beginObject, .string (ascii "user"), .nameSeparator, .beginObject,
        .string (ascii "name"), .nameSeparator] ++ named ++
          [.string (ascii "uri"), .nameSeparator] ++ located ++ [.endObject, .valueSeparator,
            .string (ascii "feeds"), .nameSeparator, .beginArray] ++ rest := by
  have plainUri : Json.Plain (USER_URI.bytes ++ (lit "/").bytes) := by decide
  rw [headText_eq, List.append_assoc, List.append_assoc] at ran
  obtain ⟨st₁, _, _, ranOpening, ranEntry, rfl⟩ := Json.run_append_eq_some.1 ran
  have opening : Json.run .between (lit "\x7b\n\"user\": \x7b\n\"name\": \"").bytes = some (.text [],
      [.beginObject, .string (ascii "user"), .nameSeparator, .beginObject,
        .string (ascii "name"), .nameSeparator]) := rfl
  cases opening.symm.trans ranOpening
  obtain ⟨named, located, _, isNamed, isLocated, ranRest, rfl⟩ :=
    run_entry plainUri ranEntry
  obtain ⟨st₂, _, rest, ranClosing, ranMore, rfl⟩ := Json.run_append_eq_some.1 ranRest
  have closing : Json.run .between (lit "\x7d,\n\"feeds\": [\n").bytes = some (.between,
      [.endObject, .valueSeparator, .string (ascii "feeds"), .nameSeparator, .beginArray]) := rfl
  cases closing.symm.trans ranClosing
  exact ⟨named, located, rest, isNamed, isLocated, ranMore, by simp⟩

theorem run_feeds_cons {feed : CString} {others : List CString} {more : Bytes} {st : LexState}
    {tokens : List Token}
    (ran : Json.run .between (feedsText (feed :: others) ++ more) = some (st, tokens)) :
    ∃ named located comma rest, NameLine feed named ∧ UriLine FEED_URI feed located ∧
      (∀ s, Token.string s ∉ comma) ∧
      Json.run .between (feedsText others ++ more) = some (st, rest) ∧
      tokens = [.beginObject, .string (ascii "name"), .nameSeparator] ++
        (named ++ [.string (ascii "uri"), .nameSeparator] ++ located ++ (comma ++ rest)) := by
  have plainUri : Json.Plain (FEED_URI.bytes ++ (lit "/").bytes) := by decide
  have opening : Json.run .between (lit "\x7b\n\"name\": \"").bytes = some (.text [],
      [.beginObject, .string (ascii "name"), .nameSeparator]) := rfl
  have closing : Json.run .between (lit "\x7d\n").bytes = some (.between, [.endObject]) := rfl
  have separator : Json.run .between (lit ",\n").bytes = some (.between, [.valueSeparator]) := rfl
  rw [feedsText, feedText_eq] at ran
  simp only [List.append_assoc] at ran
  obtain ⟨st₁, _, _, ranOpening, ranEntry, rfl⟩ := Json.run_append_eq_some.1 ran
  cases opening.symm.trans ranOpening
  obtain ⟨named, located, _, isNamed, isLocated, ranRest, rfl⟩ := run_entry plainUri ranEntry
  obtain ⟨st₂, _, _, ranClosing, ranOthers, rfl⟩ := Json.run_append_eq_some.1 ranRest
  cases closing.symm.trans ranClosing
  obtain ⟨st₃, comma, rest, ranComma, ranLast, rfl⟩ := Json.run_append_eq_some.1 ranOthers
  have between : st₃ = .between ∧ ∀ s, Token.string s ∉ comma := by
    split at ranComma
    · cases ranComma
      exact ⟨rfl, by simp⟩
    · cases separator.symm.trans ranComma
      exact ⟨rfl, by simp⟩
  obtain ⟨rfl, noString⟩ := between
  exact ⟨named, located, .endObject :: comma, rest, isNamed, isLocated, by simpa using noString,
    ranLast, by simp⟩

/-! ## The user -/

/-- A string that is read where the name was pasted. -/
theorem NameLine.string {name : CString} {tokens : List Token} (line : NameLine name tokens) :
    ∃ mid s rest last, Json.run (.text []) (name.bytes ++ [0x22]) = some (mid, .string s :: rest) ∧
      tokens = .string s :: rest ++ last := by
  have noQuote : (0x22 : UInt8) ∉ [0x2C] := by decide
  obtain ⟨-, mid, s, rest, last, ranText, -, same⟩ := Json.run_quoted noQuote line
  exact ⟨mid, s, rest, last, ranText, same⟩

/-- A record ends with a line, so all its tokens are complete. -/
theorem tokens_of_denotes {p : UfPair} {v : Json.Value} (denotes : Json.Denotes (dbText p) v) :
    ∃ ts, Json.run .between (dbText p) = some (.between, ts) ∧ Json.ReadsValue ts v [] := by
  obtain ⟨ts, lexed, reads⟩ := denotes
  unfold Json.lex at lexed
  split at lexed
  · cases lexed
  · rename_i st tokens ran
    have ending : (lit "]\n\x7d\n").bytes = (lit "]\n\x7d").bytes ++ [0x0A] := by decide
    have line : dbText p =
        headText p.user ++ feedsText p.feeds ++ (lit "]\n\x7d").bytes ++ [0x0A] := by
      rw [dbText, ending, List.append_assoc _ _ [0x0A]]
    obtain rfl := Json.run_newline (line ▸ ran)
    obtain ⟨last, finished, rfl⟩ := Option.map_eq_some_iff.1 lexed
    cases finished
    exact ⟨tokens, ran, by simpa using reads⟩

/-- The tree of a readable record begins with its user. -/
theorem tree_of_denotes {p : UfPair} {v : Json.Value} (denotes : Json.Denotes (dbText p) v) :
    ∃ mid s rest others members,
      Json.run (.text []) (p.user.bytes ++ [0x22]) = some (mid, .string s :: rest) ∧
      v = .object ((ascii "user", .object ((ascii "name", .string s) :: others)) :: members) := by
  obtain ⟨ts, ran, reads⟩ := tokens_of_denotes denotes
  rw [dbText, List.append_assoc] at ran
  obtain ⟨named, located, more, isNamed, -, -, rfl⟩ := run_head ran
  obtain ⟨mid, s, rest, lastNamed, ranName, rfl⟩ := isNamed.string
  obtain ⟨first, members, after, rfl, readsUser⟩ := reads.firstMember
  obtain ⟨name, others, after', rfl, readsName⟩ := readsUser.firstMember
  cases readsName
  exact ⟨mid, s, rest, others, members, ranName, rfl⟩

theorem addStoredFeed_user {uf uf' : UfPair} {value : Json.Value}
    (added : addStoredFeed uf value = .ok uf') : uf'.user = uf.user := by
  unfold addStoredFeed at added
  cases found : jsonFindObject (lit "name") value with
  | none => rw [found] at added; cases added
  | some jo =>
      rw [found] at added
      cases jo with
      | string s =>
          cases added
          show (ufPairAddFeed uf (cstr s)).1.user = uf.user
          unfold ufPairAddFeed
          split <;> rfl
      | _ => cases added

theorem storedPair_user {jv : Json.Value} {s : Bytes} {q : UfPair}
    (stored : storedPair jv (.string s) = .ok q) : q.user = cstr s := by
  unfold storedPair at stored
  cases found : jsonFindObject (lit "feeds") jv with
  | none => rw [found] at stored; cases stored
  | some ji =>
      rw [found] at stored
      cases ji with
      | array values =>
          refine Program.foldlM_invariant (I := fun uf => uf.user = cstr s) ?_ rfl stored
          intro uf value uf' _ same added
          rw [addStoredFeed_user added, same]
      | _ => cases stored; rfl

/-- The user that is read from a record, from the name that was pasted. -/
theorem user_of_fromDbvalue {json : Json.Parser} {p q : UfPair}
    (read : ufPairFromDbvalue json (dbText p) = .ok (some q)) :
    ∃ mid s rest, Json.run (.text []) (p.user.bytes ++ [0x22]) = some (mid, .string s :: rest) ∧
      q.user = cstr s := by
  cases parsed : json.parse (dbText p) with
  | none => simp [ufPairFromDbvalue, parsed] at read
  | some v =>
      obtain ⟨mid, s, rest, others, members, ranName, rfl⟩ :=
        tree_of_denotes ((json.parse_eq_some_iff _ _).1 parsed)
      refine ⟨mid, s, rest, ranName, ?_⟩
      have isUser : lit "user" = cstr (ascii "user") := rfl
      have isName : lit "name" = cstr (ascii "name") := rfl
      simp only [ufPairFromDbvalue, parsed, jsonFindObject, findInMembers, ← isUser, ← isName,
        if_true, Option.bind_some] at read
      cases stored : storedPair (.object ((ascii "user",
          .object ((ascii "name", .string s) :: others)) :: members)) (.string s) with
      | error reason => rw [stored] at read; cases read
      | ok q' =>
          rw [stored] at read
          cases read
          exact storedPair_user stored

/-- A user's name that is verbatim is read back. -/
theorem user_kept {json : Json.Parser} {p q : UfPair} (verbatim : Json.Verbatim p.user.bytes)
    (read : ufPairFromDbvalue json (dbText p) = .ok (some q)) : q.user = p.user := by
  obtain ⟨mid, s, rest, ranName, same⟩ := user_of_fromDbvalue read
  rw [same, Json.eq_of_verbatim verbatim ranName, cstr_of_bytes]

/-- A name read from `n` as a C string is no longer than `n`, and is `n` only if that needs
no escape. -/
theorem plain_of_cstr_eq {n : CString} {s : Bytes} (bound : Json.weight s ≤ n.bytes.length)
    (same : cstr s = n) : Json.Plain n.bytes := by
  have short := Json.length_le_weight s
  have within := cstr_length_le s
  rw [same] at within
  have whole : (cstr s).bytes = s := by
    apply (List.takeWhile_sublist _).eq_of_length
    show (cstr s).bytes.length = s.length
    rw [same]
    omega
  by_contra escaped
  have heavy := Json.weight_of_not_plain escaped
  rw [← same, whole] at heavy
  have : s.length = n.bytes.length := by rw [← same, whole]
  omega

/-- A user's name that is read back needs no escape. -/
theorem plain_of_user_kept {json : Json.Parser} {p q : UfPair}
    (read : ufPairFromDbvalue json (dbText p) = .ok (some q)) (same : q.user = p.user) :
    Json.Plain p.user.bytes := by
  obtain ⟨mid, s, rest, ranName, user⟩ := user_of_fromDbvalue read
  exact plain_of_cstr_eq (Json.quoted_weight ranName List.mem_cons_self) (user ▸ same)

/-! ## The whole pair -/

/-- No name in the pair needs an escape. -/
def PlainNames (p : UfPair) : Prop := Json.Plain p.user.bytes ∧ ∀ f ∈ p.feeds, Json.Plain f.bytes

instance (p : UfPair) : Decidable (PlainNames p) := inferInstanceAs (Decidable (_ ∧ _))

theorem plain_of_line {name : CString} {tokens : List Token} (verbatim : Json.Verbatim name.bytes)
    (line : NameLine name tokens) : Json.Plain name.bytes := by
  obtain ⟨mid, s, rest, last, ranName, -⟩ := line.string
  exact Json.plain_of_verbatim verbatim ranName

theorem plain_of_feeds {feeds : List CString} {more : Bytes} {st : LexState} {tokens : List Token}
    (verbatim : ∀ f ∈ feeds, Json.Verbatim f.bytes)
    (ran : Json.run .between (feedsText feeds ++ more) = some (st, tokens)) :
    ∀ f ∈ feeds, Json.Plain f.bytes := by
  induction feeds generalizing tokens with
  | nil => simp
  | cons feed others ih =>
      obtain ⟨named, located, comma, rest, isNamed, -, -, ranRest, -⟩ := run_feeds_cons ran
      intro f member
      rcases List.mem_cons.1 member with rfl | member
      · exact plain_of_line (verbatim f List.mem_cons_self) isNamed
      · exact ih (fun f there => verbatim f (List.mem_cons_of_mem _ there)) ranRest f member

/-- Verbatim names in a text that can be read need no escape. -/
theorem plainNames_of_denotes {p : UfPair} {v : Json.Value} (denotes : Json.Denotes (dbText p) v)
    (user : Json.Verbatim p.user.bytes) (feeds : ∀ f ∈ p.feeds, Json.Verbatim f.bytes) :
    PlainNames p := by
  obtain ⟨ts, ran, -⟩ := tokens_of_denotes denotes
  rw [dbText, List.append_assoc] at ran
  obtain ⟨named, located, rest, isNamed, -, ranFeeds, -⟩ := run_head ran
  exact ⟨plain_of_line user isNamed, plain_of_feeds feeds ranFeeds⟩

/-- Whatever is read from a record of verbatim names is the pair that was written. -/
theorem eq_of_read {json : Json.Parser} {p q : UfPair} (user : Json.Verbatim p.user.bytes)
    (feeds : ∀ f ∈ p.feeds, Json.Verbatim f.bytes) (nodup : p.feeds.Nodup)
    (read : ufPairFromDbvalue json (dbText p) = .ok (some q)) : q = p := by
  cases parsed : json.parse (dbText p) with
  | none => simp [ufPairFromDbvalue, parsed] at read
  | some v =>
      obtain ⟨plainUser, plainFeeds⟩ :=
        plainNames_of_denotes ((json.parse_eq_some_iff _ _).1 parsed) user feeds
      rw [fromDbvalue_dbText json plainUser plainFeeds nodup] at read
      cases read
      rfl

end Feedserver.Records
