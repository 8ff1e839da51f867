/-
# Records.Names — names that isobject_valid accepts, and names a request brings

A valid name is alphanumeric and not empty, so it needs no escape in a record and no slash
is in it. `route_object` finds the name that the URI has behind its second slash
(`Locates`). What a request brings is `Fit` when every name in its payload is, and it brings
no feed twice (`fit_of_accept`).
-/
import Feedserver.Records.Stored

namespace Feedserver.Records

open Feedserver.Theory
open Feedserver.Source

set_option autoImplicit false

/-! ## Valid names -/

def ValidName (name : CString) : Prop := isobjectValid name = true

instance (name : CString) : Decidable (ValidName name) :=
  inferInstanceAs (Decidable (isobjectValid name = true))

theorem validName_iff {name : CString} :
    ValidName name ↔ name.bytes ≠ [] ∧ ∀ b ∈ name.bytes, isalnum b = true := by
  unfold ValidName isobjectValid
  cases name.bytes with
  | nil => simp [show isalnum 0 = false from rfl]
  | cons b bs => simp

theorem unescaped_of_isalnum {b : UInt8} (alnum : isalnum b = true) : Json.Unescaped b := by
  simp only [isalnum, Bool.or_eq_true, Bool.and_eq_true, decide_eq_true_eq,
    UInt8.le_iff_toNat_le] at alnum
  simp only [Json.Unescaped, UInt8.le_iff_toNat_le, ne_eq, ← UInt8.toNat_inj]
  simp at alnum ⊢
  omega

theorem ne_slash_of_isalnum {b : UInt8} (alnum : isalnum b = true) : b ≠ 0x2F := by
  rintro rfl
  cases alnum

theorem ValidName.plain {name : CString} (valid : ValidName name) : Json.Plain name.bytes :=
  fun b member => unescaped_of_isalnum ((validName_iff.1 valid).2 b member)

theorem ValidName.verbatim {name : CString} (valid : ValidName name) : Json.Verbatim name.bytes :=
  Json.verbatim_of_plain valid.plain

theorem ValidName.no_slash {name : CString} (valid : ValidName name) : 0x2F ∉ name.bytes :=
  fun member => ne_slash_of_isalnum ((validName_iff.1 valid).2 _ member) rfl

/-! ## Names in URIs -/

/-- The URI names an object: `/path/object`, and a space after it. -/
def Locates (req : HttpRequest) (object : CString) : Prop :=
  1 < req.urlLength ∧ ∃ path rest, req.url.bytes = 0x2F :: (path ++ 0x2F :: object.bytes) ++
    0x20 :: rest ∧ 0x2F ∉ path ∧ 0x20 ∉ path

theorem strchr_append {front : Bytes} {c : UInt8} (absent : c ∉ front) (back : Bytes) :
    strchr (front ++ c :: back) c = some front.length := by
  induction front with
  | nil => simp [strchr, List.findIdx?_cons]
  | cons b bs ih =>
      have different : b ≠ c := fun same => absent (by simp [same])
      have later := ih fun member => absent (List.mem_cons_of_mem _ member)
      simp only [strchr] at later
      simp [strchr, List.findIdx?_cons, different, later]

/-- What is found splits the string at the first such character. -/
theorem split_of_strchr {s : Bytes} {c : UInt8} {n : Nat} (found : strchr s c = some n) :
    s = s.take n ++ c :: s.drop (n + 1) ∧ c ∉ s.take n := by
  obtain ⟨inside, here, before⟩ := List.findIdx?_eq_some_iff_getElem.1 found
  have here : s[n] = c := by simpa using here
  constructor
  · rw [← here, ← List.drop_eq_getElem_cons inside, List.take_append_drop]
  · intro member
    obtain ⟨j, below, same⟩ := List.mem_take_iff_getElem.1 member
    exact before j (by omega) (by simpa using same)

/-- Two texts that are split at their first slash are split alike. -/
theorem split_at_slash {path path' tail tail' : Bytes} (noSlash : 0x2F ∉ path)
    (noSlash' : 0x2F ∉ path') (same : path ++ 0x2F :: tail = path' ++ 0x2F :: tail') :
    path = path' ∧ tail = tail' := by
  have first := strchr_append noSlash tail
  rw [same, strchr_append noSlash' tail'] at first
  have lengths : path.length = path'.length := (Option.some.inj first).symm
  have parts := List.append_inj same lengths
  exact ⟨parts.1, (List.cons.inj parts.2).2⟩

theorem routeObject_of_locates {req : HttpRequest} {object : CString} (locates : Locates req object)
    (noSpace : 0x20 ∉ object.bytes) : routeObject req.url req.urlLength = .ok (some object) := by
  obtain ⟨long, path, rest, url, noSlash, pathNoSpace⟩ := locates
  have spaceless : 0x20 ∉ path ++ 0x2F :: object.bytes := by
    simp only [List.mem_append, List.mem_cons, not_or]
    exact ⟨pathNoSpace, by decide, noSpace⟩
  have found := strchr_append spaceless rest
  have object' := strchr_append noSlash object.bytes
  have positive : (path ++ 0x2F :: object.bytes).length > 0 := by
    rw [List.length_append, List.length_cons]
    omega
  unfold routeObject
  rw [if_neg (by omega), url]
  simp only [List.cons_append, ne_eq, not_true_eq_false, if_false, found, if_pos positive,
    List.take_left, object', Option.map_some]
  simp

theorem locates_of_routeObject {req : HttpRequest} {object : CString}
    (found : routeObject req.url req.urlLength = .ok (some object)) : Locates req object := by
  unfold routeObject at found
  split at found
  · cases found
  · rename_i long
    split at found
    · cases found
    · rename_i slash haystack url
      split at found
      · cases found
      · rename_i isSlash
        split at found
        · cases found
        · rename_i needleEnd atSpace
          split at found
          · simp only [Except.ok.injEq, Option.map_eq_some_iff] at found
            obtain ⟨needle, atSlash, named⟩ := found
            obtain ⟨whole, noSpace⟩ := split_of_strchr atSpace
            obtain ⟨front, noSlash⟩ := split_of_strchr atSlash
            have free : (0 : UInt8) ∉ (haystack.take needleEnd).drop (needle + 1) := by
              intro member
              have inUrl : (0 : UInt8) ∈ haystack :=
                List.mem_of_mem_take (List.mem_of_mem_drop member)
              exact req.url.nulFree (url ▸ List.mem_cons_of_mem _ inUrl)
            have bytes : object.bytes = (haystack.take needleEnd).drop (needle + 1) := by
              rw [← named, cstr_bytes_of_nulFree free]
            refine ⟨by omega, (haystack.take needleEnd).take needle, haystack.drop (needleEnd + 1),
              ?_, noSlash, fun member => noSpace (List.mem_of_mem_take member)⟩
            have isSlash : slash = 0x2F := by simpa using isSlash
            rw [url, isSlash, bytes, ← front, List.cons_append, ← whole]
          · cases found

theorem ValidName.no_space {name : CString} (valid : ValidName name) : 0x20 ∉ name.bytes :=
  fun member => absurd ((validName_iff.1 valid).2 _ member) (by decide)

/-! ## Names in requests -/

/-- Every name that the payload gives to a subscribe is fit to be stored. -/
def Brings (U F : CString → Prop) (json : Json.Parser) (payload : Bytes) : Prop :=
  ∀ user feeds, Asks json payload user feeds → U (cstr user) ∧ ∀ f ∈ feeds, F (cstr f)

theorem nodup_requested (user : Bytes) (feeds : List Bytes) : (requested user feeds).feeds.Nodup := by
  rw [requested_eq]
  exact UniqueList.nodup _

theorem mem_requested {user : Bytes} {feeds : List Bytes} {f : CString} :
    f ∈ (requested user feeds).feeds ↔ ∃ g ∈ feeds, cstr g = f := by
  rw [requested_eq]
  simp [pairOf, UniqueList.empty]

@[simp] theorem requested_user (user : Bytes) (feeds : List Bytes) :
    (requested user feeds).user = cstr user := by
  rw [requested_eq]
  rfl

/-- What a payload brings is what is in the pair it is read as. -/
theorem brings_of_fromRequest {U F : CString → Prop} {json : Json.Parser} {payload : Bytes}
    {p : UfPair} (parsed : ufPairFromRequest json payload = .ok (some p)) (fit : Fit U F p) :
    Brings U F json payload := by
  intro user feeds asks
  have same := fromRequest_eq_some_iff.2 ⟨user, feeds, asks, rfl⟩
  rw [parsed] at same
  cases same
  refine ⟨by simpa using fit.1, fun f named => fit.2 _ (mem_requested.2 ⟨f, named, rfl⟩)⟩

theorem asks_of_accept {json : Json.Parser} {req : HttpRequest} {ufReq : UfPair}
    (accepted : accept json req = .ok ufReq) :
    ∃ user feeds, Asks json req.body user feeds ∧ ufReq = requested user feeds :=
  fromRequest_eq_some_iff.1 (request_of_accept accepted).2.2

theorem fit_of_accept {U F : CString → Prop} {json : Json.Parser} {req : HttpRequest}
    {ufReq : UfPair} (accepted : accept json req = .ok ufReq) (brings : Brings U F json req.body) :
    Fit U F ufReq := by
  obtain ⟨user, feeds, asks, rfl⟩ := asks_of_accept accepted
  obtain ⟨isUser, areFeeds⟩ := brings user feeds asks
  refine ⟨by simpa using isUser, ?_⟩
  intro f member
  obtain ⟨g, named, rfl⟩ := mem_requested.1 member
  exact areFeeds g named

theorem nodup_of_accept {json : Json.Parser} {req : HttpRequest} {ufReq : UfPair}
    (accepted : accept json req = .ok ufReq) : ufReq.feeds.Nodup := by
  obtain ⟨user, feeds, -, rfl⟩ := asks_of_accept accepted
  exact nodup_requested user feeds

end Feedserver.Records
