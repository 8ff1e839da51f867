/-
# Records.Payloads — what uf_pair_from_request takes, and on which payloads it is defined

`json_find_object` walks the whole tree, so a member counts wherever it stands:
`jsonFindObject_eq` says that it finds the first member of the name in the order of the text
(`everyMember`).

* `fromRequest_total_iff`: no access is undefined exactly when the user is not an array of one
  value that is no string (`UserTagged`).
* `fromRequest_grammar`: on these payloads a pair comes out exactly of the objects of two
  members whose first `user` and first `feeds`, at any depth, have one of the two forms each
  (`Names`), and it is the pair they name. `nested_user_taken` is such a payload that has no
  `user` of its own.
-/
import Feedserver.Records.Requests

namespace Feedserver.Records

open Feedserver.Theory
open Feedserver.Source

set_option autoImplicit false

/-! ## Members in the order of the text -/

mutual

/-- Every member of a tree, at any depth: a member before those inside its value. -/
def everyMember : Json.Value → List (Bytes × Json.Value)
  | .object members => membersOf members
  | .array values => membersOfEach values
  | _ => []

def membersOf : List (Bytes × Json.Value) → List (Bytes × Json.Value)
  | [] => []
  | (n, value) :: rest => (n, value) :: (everyMember value ++ membersOf rest)

def membersOfEach : List Json.Value → List (Bytes × Json.Value)
  | [] => []
  | value :: rest => everyMember value ++ membersOfEach rest

end

/-- The first member of the list that is of this name to `strcmp`. -/
def firstNamed (name : CString) (members : List (Bytes × Json.Value)) : Option Json.Value :=
  (members.find? fun m => name = cstr m.1).map Prod.snd

theorem firstNamed_append (name : CString) (front back : List (Bytes × Json.Value)) :
    firstNamed name (front ++ back) = (firstNamed name front).or (firstNamed name back) := by
  simp only [firstNamed, List.find?_append]
  cases front.find? fun m => name = cstr m.1 <;> rfl

mutual

/-- The search finds the first member of the name. -/
theorem jsonFindObject_eq (name : CString) :
    ∀ v : Json.Value, jsonFindObject name v = firstNamed name (everyMember v)
  | .object members => by
      rw [jsonFindObject, everyMember]
      exact findInMembers_eq name members
  | .array values => by
      rw [jsonFindObject, everyMember]
      exact findInValues_eq name values
  | .string _ | .integer _ | .double _ | .boolean _ | .null => rfl

theorem findInMembers_eq (name : CString) :
    ∀ members : List (Bytes × Json.Value),
      findInMembers name members = firstNamed name (membersOf members)
  | [] => rfl
  | (n, value) :: rest => by
      rw [findInMembers, membersOf]
      by_cases same : name = cstr n
      · simp [firstNamed, same]
      · have skipped : firstNamed name ((n, value) :: (everyMember value ++ membersOf rest)) =
            firstNamed name (everyMember value ++ membersOf rest) := by
          simp [firstNamed, same]
        rw [if_neg same, skipped, firstNamed_append, jsonFindObject_eq name value,
          findInMembers_eq name rest]
        cases firstNamed name (everyMember value) <;> rfl

theorem findInValues_eq (name : CString) :
    ∀ values : List Json.Value, findInValues name values = firstNamed name (membersOfEach values)
  | [] => rfl
  | value :: rest => by
      rw [findInValues, membersOfEach, firstNamed_append, jsonFindObject_eq name value,
        findInValues_eq name rest]
      cases firstNamed name (everyMember value) <;> rfl

end

/-! ## Where every access is defined -/

/-- Where the search for the user comes to an array of one value, that value is a string. -/
def UserTagged (json : Json.Parser) (payload : Bytes) : Prop :=
  ∀ members v, json.parse payload = some (.object members) → members.length = 2 →
    jsonFindObject (lit "user") (.object members) = some (.array [v]) → ∃ s, v = .string s

theorem requestUser_total_iff {ji : Json.Value} :
    (∃ found, requestUser ji = .ok found) ↔ ∀ v, ji = .array [v] → ∃ s, v = .string s := by
  constructor
  · rintro ⟨found, total⟩ v rfl
    cases v with
    | string s => exact ⟨s, rfl⟩
    | _ => cases total
  · intro tagged
    unfold requestUser
    split
    · split
      · obtain ⟨s, rfl⟩ := tagged _ rfl
        exact ⟨_, rfl⟩
      · exact ⟨_, rfl⟩
    · exact ⟨_, rfl⟩
    · exact ⟨_, rfl⟩

theorem fromRequest_total {json : Json.Parser} {payload : Bytes}
    (tagged : UserTagged json payload) : ∃ found, ufPairFromRequest json payload = .ok found := by
  unfold ufPairFromRequest
  split
  · rename_i members parsed
    by_cases two : members.length = 2
    · rw [if_neg (not_not.2 two)]
      cases atUser : jsonFindObject (lit "user") (.object members) with
      | none => exact ⟨none, rfl⟩
      | some ji =>
          have sound : ∀ v, ji = .array [v] → ∃ s, v = .string s := by
            rintro v rfl
            exact tagged members v parsed two atUser
          obtain ⟨user, total⟩ := requestUser_total_iff.2 sound
          simp only [total]
          cases user with
          | none => exact ⟨none, rfl⟩
          | some user =>
              cases jsonFindObject (lit "feeds") (.object members) with
              | none => exact ⟨none, rfl⟩
              | some jf => exact ⟨requestFeeds user jf, rfl⟩
    · rw [if_pos two]
      exact ⟨none, rfl⟩
  · exact ⟨none, rfl⟩

/-- **Where uf_pair_from_request is safe.** It returns, NULL or a pair, without an undefined
access on exactly these payloads. -/
theorem fromRequest_total_iff {json : Json.Parser} {payload : Bytes} :
    (∃ found, ufPairFromRequest json payload = .ok found) ↔ UserTagged json payload := by
  constructor
  · rintro ⟨found, total⟩ members v parsed two atUser
    simp only [ufPairFromRequest, parsed, two, ne_eq, not_true_eq_false, if_false, atUser] at total
    cases v with
    | string s => exact ⟨s, rfl⟩
    | _ => cases total
  · intro tagged
    exact fromRequest_total tagged

/-- A number where the user's name should be: its string pointer is read. -/
theorem number_user_read : ¬ ∀ payload : Bytes,
    ∃ found, ufPairFromRequest Json.reader payload = .ok found := by
  intro all
  obtain ⟨found, total⟩ := all (ascii "\x7b\"user\":[1],\"feeds\":\"f\"\x7d")
  have wrong : ufPairFromRequest Json.reader (ascii "\x7b\"user\":[1],\"feeds\":\"f\"\x7d") =
      .error .wrongTag := by decide +kernel
  rw [wrong] at total
  cases total

/-! ## Texts without NUL -/

mutual

/-- Every string in a tree, the names of members among them. -/
def everyString : Json.Value → List Bytes
  | .object members => stringsOfMembers members
  | .array values => stringsOfEach values
  | .string s => [s]
  | _ => []

def stringsOfMembers : List (Bytes × Json.Value) → List Bytes
  | [] => []
  | (n, value) :: rest => n :: (everyString value ++ stringsOfMembers rest)

def stringsOfEach : List Json.Value → List Bytes
  | [] => []
  | value :: rest => everyString value ++ stringsOfEach rest

end

/-- No `\u0000` is in a string of the tree. -/
def NulFree (v : Json.Value) : Prop := ∀ s ∈ everyString v, (0 : UInt8) ∉ s

theorem everyString_of_element {v : Json.Value} {values : List Json.Value} (member : v ∈ values)
    {s : Bytes} (inside : s ∈ everyString v) : s ∈ stringsOfEach values := by
  induction values with
  | nil => cases member
  | cons first rest ih =>
      rw [stringsOfEach, List.mem_append]
      rcases List.mem_cons.1 member with rfl | later
      · exact .inl inside
      · exact .inr (ih later)

mutual

/-- The strings of a member are strings of the tree. -/
theorem everyString_of_member {m : Bytes × Json.Value} {s : Bytes} :
    ∀ v : Json.Value, m ∈ everyMember v → s = m.1 ∨ s ∈ everyString m.2 → s ∈ everyString v
  | .object members, member, inside => by
      rw [everyMember] at member
      rw [everyString]
      exact stringsOfMembers_of_member members member inside
  | .array values, member, inside => by
      rw [everyMember] at member
      rw [everyString]
      exact stringsOfEach_of_member values member inside
  | .string _, member, _ | .integer _, member, _ | .double _, member, _ | .boolean _, member, _
  | .null, member, _ => by cases member

theorem stringsOfMembers_of_member {m : Bytes × Json.Value} {s : Bytes} :
    ∀ members : List (Bytes × Json.Value), m ∈ membersOf members →
      s = m.1 ∨ s ∈ everyString m.2 → s ∈ stringsOfMembers members
  | [], member, _ => by cases member
  | (n, value) :: rest, member, inside => by
      rw [stringsOfMembers, List.mem_cons, List.mem_append]
      rw [membersOf, List.mem_cons, List.mem_append] at member
      rcases member with rfl | within | later
      · exact inside.imp id .inl
      · exact .inr (.inl (everyString_of_member value within inside))
      · exact .inr (.inr (stringsOfMembers_of_member rest later inside))

theorem stringsOfEach_of_member {m : Bytes × Json.Value} {s : Bytes} :
    ∀ values : List Json.Value, m ∈ membersOfEach values →
      s = m.1 ∨ s ∈ everyString m.2 → s ∈ stringsOfEach values
  | [], member, _ => by cases member
  | value :: rest, member, inside => by
      rw [stringsOfEach, List.mem_append]
      rw [membersOfEach, List.mem_append] at member
      rcases member with within | later
      · exact .inl (everyString_of_member value within inside)
      · exact .inr (stringsOfEach_of_member rest later inside)

end

/-! ## The grammar -/

/-- The value of the first member of this name, in the order of the text. -/
def firstMember (name : Bytes) (v : Json.Value) : Option Json.Value :=
  ((everyMember v).find? fun m => m.1 = name).map Prod.snd

/-- Without NULs `strcmp` compares the whole names. -/
theorem jsonFindObject_of_nulFree {name : CString} {v : Json.Value} (nulFree : NulFree v) :
    jsonFindObject name v = firstMember name.bytes v := by
  have agree : ∀ m ∈ everyMember v, decide (name = cstr m.1) = decide (m.1 = name.bytes) := by
    intro m member
    have whole : (cstr m.1).bytes = m.1 :=
      cstr_bytes_of_nulFree (nulFree _ (everyString_of_member v member (.inl rfl)))
    apply decide_eq_decide.2
    rw [CString.ext_iff, whole]
    exact eq_comm
  rw [jsonFindObject_eq, firstNamed, firstMember, ← List.head?_filter, ← List.head?_filter,
    List.filter_congr agree]

/-- The string that a value is, or that an array of one holds. -/
theorem nulFree_user {v ji : Json.Value} {name user : Bytes} (nulFree : NulFree v)
    (found : firstMember name v = some ji) (names : NamesUser ji user) : (0 : UInt8) ∉ user := by
  obtain ⟨m, first, rfl⟩ := Option.map_eq_some_iff.1 found
  apply nulFree
  refine everyString_of_member v (List.mem_of_find?_eq_some first) (.inr ?_)
  generalize m.2 = ji at names
  cases names with
  | string => simp [everyString]
  | array => simp [everyString, stringsOfEach]

theorem nulFree_feeds {v jf : Json.Value} {name : Bytes} {feeds : List Bytes}
    (nulFree : NulFree v) (found : firstMember name v = some jf) (names : NamesFeeds jf feeds) :
    ∀ f ∈ feeds, (0 : UInt8) ∉ f := by
  intro f named
  obtain ⟨m, first, rfl⟩ := Option.map_eq_some_iff.1 found
  apply nulFree
  refine everyString_of_member v (List.mem_of_find?_eq_some first) (.inr ?_)
  generalize m.2 = jf at names
  cases names with
  | string =>
      obtain rfl := List.mem_singleton.1 named
      simp [everyString]
  | array =>
      obtain ⟨value, member, isString⟩ := List.mem_filterMap.1 named
      rw [everyString]
      apply everyString_of_element member
      cases value with
      | string s =>
          obtain rfl : s = f := Option.some.inj isString
          simp [everyString]
      | _ => cases isString

/-- The payload names a user and feeds: an object of two members, in which the first `user` and
the first `feeds`, at any depth, have one of their two forms. -/
structure Names (json : Json.Parser) (payload user : Bytes) (feeds : List Bytes) : Prop where
  intro ::
  reads : ∃ members ji jf, json.parse payload = some (.object members) ∧ members.length = 2 ∧
    firstMember (ascii "user") (.object members) = some ji ∧ NamesUser ji user ∧
    firstMember (ascii "feeds") (.object members) = some jf ∧ NamesFeeds jf feeds

/-- No `\u0000` is in a string of the payload. -/
def NulFreePayload (json : Json.Parser) (payload : Bytes) : Prop :=
  ∀ v, json.parse payload = some v → NulFree v

/-- Where the first `user` is an array of one value, that value is a string. -/
def FirstUserTagged (json : Json.Parser) (payload : Bytes) : Prop :=
  ∀ members v, json.parse payload = some (.object members) → members.length = 2 →
    firstMember (ascii "user") (.object members) = some (.array [v]) → ∃ s, v = .string s

section NulFree

variable {json : Json.Parser} {payload : Bytes}

theorem asks_iff_names (nulFree : NulFreePayload json payload) {user : Bytes} {feeds : List Bytes} :
    Asks json payload user feeds ↔ Names json payload user feeds := by
  have search (members : List (Bytes × Json.Value))
      (parsed : json.parse payload = some (.object members)) (name : CString) :
      jsonFindObject name (.object members) = firstMember name.bytes (.object members) :=
    jsonFindObject_of_nulFree (nulFree _ parsed)
  constructor
  · rintro ⟨members, ji, jf, parsed, two, atUser, isUser, atFeeds, areFeeds⟩
    rw [search members parsed] at atUser atFeeds
    exact ⟨members, ji, jf, parsed, two, atUser, isUser, atFeeds, areFeeds⟩
  · rintro ⟨members, ji, jf, parsed, two, atUser, isUser, atFeeds, areFeeds⟩
    refine ⟨members, ji, jf, parsed, two, ?_, isUser, ?_, areFeeds⟩
    · rw [search members parsed]
      exact atUser
    · rw [search members parsed]
      exact atFeeds

theorem userTagged_of_first (nulFree : NulFreePayload json payload)
    (tagged : FirstUserTagged json payload) : UserTagged json payload := by
  intro members v parsed two atUser
  rw [jsonFindObject_of_nulFree (nulFree _ parsed)] at atUser
  exact tagged members v parsed two atUser

/-- What is named has no NUL in it. -/
theorem Names.nulFree {user : Bytes} {feeds : List Bytes} (names : Names json payload user feeds)
    (nulFree : NulFreePayload json payload) : (0 : UInt8) ∉ user ∧ ∀ f ∈ feeds, (0 : UInt8) ∉ f := by
  obtain ⟨members, ji, jf, parsed, -, atUser, isUser, atFeeds, areFeeds⟩ := names
  exact ⟨nulFree_user (nulFree _ parsed) atUser isUser,
    nulFree_feeds (nulFree _ parsed) atFeeds areFeeds⟩

end NulFree

/-- Dropping repeats before or after the strings become C strings is the same, as they lose
nothing. -/
theorem map_bytes_eraseDups {names : List Bytes} (nulFree : ∀ n ∈ names, (0 : UInt8) ∉ n) :
    ((names.map cstr).eraseDups).map CString.bytes = names.eraseDups := by
  generalize bound : names.length = n
  induction n using Nat.strongRecOn generalizing names with
  | ind n ih =>
      cases names with
      | nil => rfl
      | cons x xs =>
          have whole (y : Bytes) (member : y ∈ x :: xs) : (cstr y).bytes = y :=
            cstr_bytes_of_nulFree (nulFree y member)
          have later : ((xs.map cstr).filter fun y => !y == cstr x) =
              (xs.filter fun y => !y == x).map cstr := by
            rw [List.filter_map]
            congr 1
            apply List.filter_congr
            intro y member
            have same : cstr y = cstr x ↔ y = x := by
              rw [CString.ext_iff, whole y (List.mem_cons_of_mem _ member),
                whole x List.mem_cons_self]
            simp [Function.comp, same]
          have shorter := List.length_filter_le (fun y => !y == x) xs
          simp only [List.length_cons] at bound
          rw [List.map_cons, List.eraseDups_cons, List.eraseDups_cons, List.map_cons, later,
            whole x List.mem_cons_self, ih _ (by omega) ?_ rfl]
          intro y member
          exact nulFree y (List.mem_cons_of_mem _ (List.mem_of_mem_filter member))

theorem requested_eq_iff {user : Bytes} {feeds : List Bytes} {p : UfPair}
    (userNulFree : (0 : UInt8) ∉ user) (feedsNulFree : ∀ f ∈ feeds, (0 : UInt8) ∉ f) :
    p = requested user feeds ↔
      p.user.bytes = user ∧ p.feeds.map CString.bytes = feeds.eraseDups := by
  have same : requested user feeds = ⟨cstr user, (feeds.map cstr).eraseDups⟩ := by
    rw [requested_eq, pairOf, UniqueList.addAll_empty]
  have names := map_bytes_eraseDups feedsNulFree
  rw [same]
  constructor
  · rintro rfl
    exact ⟨cstr_bytes_of_nulFree userNulFree, names⟩
  · rintro ⟨isUser, areFeeds⟩
    obtain ⟨u, fs⟩ := p
    have sameUser : u = cstr user :=
      CString.ext (isUser.trans (cstr_bytes_of_nulFree userNulFree).symm)
    have sameFeeds : fs = (feeds.map cstr).eraseDups :=
      List.map_injective_iff.2 bytes_injective (areFeeds.trans names.symm)
    rw [sameUser, sameFeeds]

/-- **What uf_pair_from_request takes.** It returns NULL or a pair, and a pair exactly when the
payload names a user and feeds: that user, and those feeds without repeats, in the order of
their first occurrence. -/
theorem fromRequest_grammar {json : Json.Parser} {payload : Bytes}
    (nulFree : NulFreePayload json payload) (tagged : FirstUserTagged json payload) :
    ∃ found, ufPairFromRequest json payload = .ok found ∧ ∀ p, found = some p ↔
      ∃ user feeds, Names json payload user feeds ∧ p.user.bytes = user ∧
        p.feeds.map CString.bytes = feeds.eraseDups := by
  obtain ⟨found, total⟩ := fromRequest_total (userTagged_of_first nulFree tagged)
  refine ⟨found, total, ?_⟩
  intro p
  have accepted : found = some p ↔ ufPairFromRequest json payload = .ok (some p) := by
    rw [total]
    exact ⟨congrArg Except.ok, Except.ok.inj⟩
  rw [accepted, fromRequest_eq_some_iff]
  constructor
  · rintro ⟨user, feeds, asks, same⟩
    have names := (asks_iff_names nulFree).1 asks
    obtain ⟨userNulFree, feedsNulFree⟩ := names.nulFree nulFree
    exact ⟨user, feeds, names, (requested_eq_iff userNulFree feedsNulFree).1 same⟩
  · rintro ⟨user, feeds, names, same⟩
    obtain ⟨userNulFree, feedsNulFree⟩ := names.nulFree nulFree
    exact ⟨user, feeds, (asks_iff_names nulFree).2 names,
      (requested_eq_iff userNulFree feedsNulFree).2 same⟩

/-! ### Members of the object itself -/

/-- The payload names a user and feeds in members of its own. -/
structure OwnNames (json : Json.Parser) (payload user : Bytes) (feeds : List Bytes) : Prop where
  intro ::
  reads : ∃ ji jf, (json.parse payload = some (.object [(ascii "user", ji), (ascii "feeds", jf)]) ∨
    json.parse payload = some (.object [(ascii "feeds", jf), (ascii "user", ji)])) ∧
      NamesUser ji user ∧ NamesFeeds jf feeds

/-- A payload whose user is a member of a member. -/
def nestedUser : Bytes := ascii "\x7b\"x\":\x7b\"user\":\"u\"\x7d,\"feeds\":\"f\"\x7d"

theorem denotes_nestedUser : Json.Denotes nestedUser (.object
    [(ascii "x", .object [(ascii "user", .string (ascii "u"))]),
      (ascii "feeds", .string (ascii "f"))]) :=
  ⟨[.beginObject, .string (ascii "x"), .nameSeparator, .beginObject, .string (ascii "user"),
    .nameSeparator, .string (ascii "u"), .endObject, .valueSeparator, .string (ascii "feeds"),
    .nameSeparator, .string (ascii "f"), .endObject], by decide +kernel,
    .object (.more (.object (.last .string)) (.last .string))⟩

theorem nulFree_nestedUser : NulFreePayload Json.reader nestedUser := by
  intro v parsed
  rw [Json.reader.parse_of_denotes denotes_nestedUser] at parsed
  cases parsed
  have strings : everyString (.object [(ascii "x", .object [(ascii "user", .string (ascii "u"))]),
      (ascii "feeds", .string (ascii "f"))]) =
      [ascii "x", ascii "user", ascii "u", ascii "feeds", ascii "f"] := rfl
  intro s member
  rw [strings] at member
  revert s
  decide

theorem tagged_nestedUser : FirstUserTagged Json.reader nestedUser := by
  intro members v parsed _ atUser
  rw [Json.reader.parse_of_denotes denotes_nestedUser] at parsed
  cases parsed
  cases atUser

/-- The pair comes out, although the object has no `user` of its own. -/
theorem nested_user_taken : ¬ ∀ (payload : Bytes) (p : UfPair),
    NulFreePayload Json.reader payload →
      (ufPairFromRequest Json.reader payload = .ok (some p) ↔
        ∃ user feeds, OwnNames Json.reader payload user feeds ∧ p.user.bytes = user ∧
          p.feeds.map CString.bytes = feeds.eraseDups) := by
  intro all
  have taken : ufPairFromRequest Json.reader nestedUser = .ok (some ⟨lit "u", [lit "f"]⟩) := by
    decide +kernel
  obtain ⟨user, feeds, ⟨ji, jf, parsed, -, -⟩, -⟩ :=
    (all nestedUser _ nulFree_nestedUser).1 taken
  rw [Json.reader.parse_of_denotes denotes_nestedUser] at parsed
  rcases parsed with own | own
  · have names := (Prod.mk.inj (List.cons.inj (Json.Value.object.inj (Option.some.inj own))).1).1
    exact absurd names (by decide)
  · have names := (Prod.mk.inj (List.cons.inj (Json.Value.object.inj (Option.some.inj own))).1).1
    exact absurd names (by decide)

theorem fromRequest_grammar_nestedUser :
    ∃ found, ufPairFromRequest Json.reader nestedUser = .ok found ∧
      found = some ⟨lit "u", [lit "f"]⟩ ∧
        Names Json.reader nestedUser (ascii "u") [ascii "f"] := by
  obtain ⟨found, total, exact_⟩ := fromRequest_grammar nulFree_nestedUser tagged_nestedUser
  have names : Names Json.reader nestedUser (ascii "u") [ascii "f"] :=
    ⟨_, _, _, Json.reader.parse_of_denotes denotes_nestedUser, rfl, rfl, .string, rfl, .string⟩
  exact ⟨found, total, (exact_ _).2 ⟨_, _, names, by decide, by decide⟩, names⟩

end Feedserver.Records
