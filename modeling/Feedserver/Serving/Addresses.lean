/-
# Serving.Addresses — which URIs get past route_object and isobject_valid

Three handlers take a name from the URI and check it before they go on. The routes give them
URIs with one of three fronts (`fronts`); behind it anything may come.

* `passes_iff`: the two checks let through exactly the alphanumeric text between the front and
  the first space (`Addresses`).
* `routeObject_total`: no such URI makes `route_object` free what it did not allocate.
* `addresses_gate`: each handler goes on with that object, and declines with 400 when there is
  none.
-/
import Feedserver.Serving.Requests

namespace Feedserver.Serving

open Feedserver.Theory
open Feedserver.Source
open Feedserver.Records

set_option autoImplicit false

/-! ## URIs -/

/-- What a URI begins with when it is routed to one of the three handlers. -/
def fronts : List CString := [lit "/feed/", lit "/user/", lit "/userarticles/"]

/-- The request has come in on one of these routes. -/
structure Registered (req : HttpRequest) : Prop where
  intro ::
  long : 1 < req.urlLength
  front : ∃ front ∈ fronts, front.bytes <+: req.url.bytes

/-- The URI is a front, the object and a space, whatever comes then; and the object is
alphanumeric and not empty. -/
structure Addresses (uri object : CString) : Prop where
  intro ::
  form : ∃ front ∈ fronts, ∃ rest, uri.bytes = front.bytes ++ object.bytes ++ 0x20 :: rest
  nonempty : object.bytes ≠ []
  alnum : ∀ b ∈ object.bytes, isalnum b = true

theorem Addresses.valid {uri object : CString} (addresses : Addresses uri object) :
    ValidName object := validName_iff.2 ⟨addresses.nonempty, addresses.alnum⟩

/-- A front is one segment between two slashes. -/
theorem front_split {front : CString} (member : front ∈ fronts) :
    ∃ path, front.bytes = 0x2F :: (path ++ [0x2F]) ∧ path ≠ [] ∧ 0x2F ∉ path ∧ 0x20 ∉ path := by
  simp only [fronts, List.mem_cons, List.not_mem_nil, or_false] at member
  rcases member with rfl | rfl | rfl
  · exact ⟨ascii "feed", by decide, by decide, by decide, by decide⟩
  · exact ⟨ascii "user", by decide, by decide, by decide, by decide⟩
  · exact ⟨ascii "userarticles", by decide, by decide, by decide, by decide⟩

section Registered

variable {req : HttpRequest} {object : CString}

theorem locates_of_addresses (registered : Registered req) (addresses : Addresses req.url object) :
    Locates req object := by
  obtain ⟨front, member, rest, url⟩ := addresses.form
  obtain ⟨path, split, -, noSlash, noSpace⟩ := front_split member
  refine ⟨registered.long, path, rest, ?_, noSlash, noSpace⟩
  rw [url, split]
  simp

theorem addresses_of_locates (registered : Registered req) (locates : Locates req object)
    (valid : ValidName object) : Addresses req.url object := by
  obtain ⟨-, front, member, tail, url⟩ := registered
  obtain ⟨path, split, -, noSlash, -⟩ := front_split member
  obtain ⟨-, path', rest, url', noSlash', -⟩ := locates
  have same : path ++ 0x2F :: tail = path' ++ 0x2F :: (object.bytes ++ 0x20 :: rest) := by
    rw [← url, split] at url'
    simpa using url'
  obtain ⟨rfl, rfl⟩ := split_at_slash noSlash noSlash' same
  obtain ⟨nonempty, alnum⟩ := validName_iff.1 valid
  exact ⟨⟨front, member, rest, by rw [← url, List.append_assoc]⟩, nonempty, alnum⟩

/-- The two checks, one after the other. -/
theorem passes_iff (registered : Registered req) :
    routeObject req.url req.urlLength = .ok (some object) ∧ isobjectValid object = true ↔
      Addresses req.url object := by
  constructor
  · rintro ⟨found, valid⟩
    exact addresses_of_locates registered (locates_of_routeObject found) valid
  · intro addresses
    refine ⟨routeObject_of_locates (locates_of_addresses registered addresses) ?_, addresses.valid⟩
    exact addresses.valid.no_space

/-- A space cannot stand right behind the first slash. -/
theorem routeObject_total (registered : Registered req) :
    ∃ found, routeObject req.url req.urlLength = .ok found := by
  obtain ⟨long, front, member, tail, url⟩ := registered
  obtain ⟨path, split, nonempty, -, noSpace⟩ := front_split member
  have bytes : req.url.bytes = 0x2F :: (path ++ 0x2F :: tail) := by
    rw [← url, split]
    simp
  unfold routeObject
  rw [if_neg (by omega), bytes]
  simp only [ne_eq, not_true_eq_false, if_false]
  cases atSpace : strchr (path ++ 0x2F :: tail) 0x20 with
  | none => exact ⟨_, rfl⟩
  | some needleEnd =>
      have positive : needleEnd > 0 := by
        rcases Nat.eq_zero_or_pos needleEnd with rfl | positive
        · obtain ⟨cut, -⟩ := split_of_strchr atSpace
          obtain ⟨b, bs, rfl⟩ := List.exists_cons_of_ne_nil nonempty
          have space : b = 0x20 := (List.cons.inj cut).1
          exact absurd (space ▸ List.mem_cons_self) noSpace
        · exact positive
      simp only [if_pos positive]
      exact ⟨_, rfl⟩

end Registered

/-! ## The handlers behind the checks -/

/-- The rest of `submit_articles`. -/
def submitTo (json : Json.Parser) (req : HttpRequest) (feed : CString) : Handler HttpResponse :=
  match faSubmissionFromRequest json feed req.body with
  | .error reason => .fault reason
  | .ok none => .done (decline .status500 (lit "Parse error in payload!") req)
  | .ok (some fa) => submitAll fa >>= fun fa => .done (respondSubmission req fa)

/-- The rest of a lookup. -/
def lookUp (req : HttpRequest) (found : Bytes → Handler HttpResponse) (user : CString) :
    Handler HttpResponse :=
  ufGet user >>= fun
    | (.notFound _, _) => .done (decline .status404 (lit "User not found!") req)
    | (.error text, _) => .done (decline .status500 text.text req)
    | (.ok, dbVal) =>
        if dbVal.length ≤ 0 then .done (decline .status500 Status.ok.toCStr req) else found dbVal

/-- Behind the shutdown check the handler goes on with the object of the URI, and with nothing
else; a URI without one is declined. -/
structure Gated (req : HttpRequest) (msg : CString) (handler : Handler HttpResponse)
    (rest : CString → Handler HttpResponse) : Prop where
  intro ::
  continues : ∀ object, Addresses req.url object → handler = shutdownCheck req (rest object)
  declines : (∀ object, ¬ Addresses req.url object) →
    handler = shutdownCheck req (.done (decline .status400 msg req))

/-- What the three handlers have in common. -/
theorem gated {req : HttpRequest} {msg : CString} {rest : CString → Handler HttpResponse}
    (registered : Registered req) : Gated req msg (shutdownCheck req
      (match routeObject req.url req.urlLength with
        | .error reason => .fault reason
        | .ok none => .done (decline .status400 msg req)
        | .ok (some object) =>
            if !isobjectValid object then .done (decline .status400 msg req) else rest object))
      rest where
  continues object addresses := by
    obtain ⟨found, valid⟩ := (passes_iff registered).2 addresses
    simp [found, valid]
  declines none := by
    obtain ⟨found, total⟩ := routeObject_total registered
    rw [total]
    cases found with
    | none => rfl
    | some object =>
        have invalid : isobjectValid object = false := by
          apply Bool.eq_false_iff.2
          intro valid
          exact none object ((passes_iff registered).1 ⟨total, valid⟩)
        simp [invalid]

/-- **The gate is exact.** The checks let through one object, the alphanumeric text between the
second slash and the first space, and with it each handler goes on; any other URI is answered
400. -/
theorem addresses_gate {json : Json.Parser} {req : HttpRequest} (registered : Registered req) :
    (∀ object, routeObject req.url req.urlLength = .ok (some object) ∧ isobjectValid object = true ↔
      Addresses req.url object) ∧
    (∀ object, Addresses req.url object → ∃ path rest, 0x2F ∉ path ∧ 0x20 ∉ path ∧
      0x20 ∉ object.bytes ∧
        req.url.bytes = 0x2F :: (path ++ 0x2F :: object.bytes) ++ 0x20 :: rest) ∧
    (req.method = .post → req.body ≠ [] →
      Gated req (lit "Bad feed in uri!") (submitArticles json req) (submitTo json req)) ∧
    (req.method = .get →
      Gated req (lit "Bad user in uri!") (getUser req)
        (lookUp req fun dbVal => .done (respondJson dbVal dbVal.length req)) ∧
      Gated req (lit "Bad user in uri!") (getArticles json req)
        (lookUp req (listArticles json req))) := by
  refine ⟨fun object => passes_iff registered, ?_, ?_, ?_⟩
  · intro object addresses
    obtain ⟨-, path, rest, url, noSlash, noSpace⟩ := locates_of_addresses registered addresses
    exact ⟨path, rest, noSlash, noSpace, addresses.valid.no_space, url⟩
  · intro post body
    have nonempty : ¬ req.body.length ≤ 0 := by simpa using body
    unfold submitArticles
    rw [if_neg (by simp [post]), if_neg nonempty]
    exact gated registered
  · intro get
    have isGet : ¬ req.method ≠ .get := by simp [get]
    unfold getUser getArticles lookupUser
    rw [if_neg isGet, if_neg isGet]
    exact ⟨gated registered, gated registered⟩

/-- `/user/u` is let through, and `/user/u/v` is not. -/
theorem addresses_gate_user :
    Gated (getPath "/user/" "u") (lit "Bad user in uri!") (getUser (getPath "/user/" "u"))
        (lookUp (getPath "/user/" "u") fun dbVal =>
          .done (respondJson dbVal dbVal.length (getPath "/user/" "u"))) ∧
      Addresses (getPath "/user/" "u").url (lit "u") ∧
        ¬ Addresses (getPath "/user/" "u/v").url (lit "u/v") := by
  have registered : Registered (getPath "/user/" "u") :=
    ⟨by decide, lit "/user/", by decide, ascii "u HTTP/1.1", by decide +kernel⟩
  obtain ⟨passes, -, -, gated⟩ := @addresses_gate Json.reader _ registered
  refine ⟨(gated rfl).1, (passes _).1 (by decide +kernel), ?_⟩
  intro addresses
  exact absurd addresses.valid (by decide)

end Feedserver.Serving
