/-
# Articles.Payloads — on which payloads fa_submission_from_request is defined, and what it takes

The loop over the articles follows the pointer that the search for `content` returns, and looks
at the first element of an array, without asking in either case whether there is one.

* `contentOf_total_iff`: one round is defined when the search comes to something that is not an
  empty array.
* `submission_total_iff`: the function is defined on exactly the payloads whose rounds all are
  (`Readable`). `bare_element_followed` is a payload that is not one of them.
* `submitted_eq_some_iff`: on these, what a payload submits is what can be taken from the entries
  found; the others are passed over.
-/
import Feedserver.Articles.Keys

namespace Feedserver.Articles

open Feedserver.Theory
open Feedserver.Source

set_option autoImplicit false

/-- Something is found under `content`, and it is not an empty array. -/
def HasContent (value : Json.Value) : Prop :=
  ∃ content, jsonFindObject (lit "content") value = some content ∧ content ≠ .array []

/-- If the search for the articles comes to an array, every element of it has a content. -/
def Readable (json : Json.Parser) (payload : Bytes) : Prop :=
  ∀ members values, json.parse payload = some (.object members) →
    jsonFindObject (lit "articles") (.object members) = some (.array values) →
      ∀ value ∈ values, HasContent value

theorem contentOf_total_iff {value : Json.Value} :
    (∃ entry, contentOf value = some entry) ↔ HasContent value := by
  unfold contentOf HasContent
  cases jsonFindObject (lit "content") value with
  | none => simp
  | some found =>
      cases found with
      | array values =>
          cases values with
          | nil => simp
          | cons first rest => cases first <;> simp
      | _ => simp

/-- The contents of those entries that have a string for a content, or an array that begins
with one. -/
def taken (entries : List Json.Value) : List Bytes :=
  entries.filterMap fun value => (contentOf value).join

theorem contentsOf_eq_some_iff {entries : List Json.Value} {contents : List Bytes} :
    contentsOf entries = some contents ↔
      (∀ value ∈ entries, HasContent value) ∧ contents = taken entries := by
  induction entries generalizing contents with
  | nil => simp [contentsOf, taken, eq_comm]
  | cons value rest ih =>
      rw [contentsOf, List.forall_mem_cons, ← contentOf_total_iff]
      cases read : contentOf value with
      | none => simp
      | some entry =>
          have here : taken (value :: rest) = entry.toList ++ taken rest := by
            cases entry <;> simp [taken, read]
          rw [here]
          simp only [Option.map_eq_some_iff, ih]
          constructor
          · rintro ⟨others, ⟨later, rfl⟩, rfl⟩
            exact ⟨⟨⟨entry, rfl⟩, later⟩, rfl⟩
          · rintro ⟨⟨-, later⟩, rfl⟩
            exact ⟨taken rest, ⟨later, rfl⟩, rfl⟩

theorem contentsOf_total_iff {entries : List Json.Value} :
    (∃ contents, contentsOf entries = some contents) ↔ ∀ value ∈ entries, HasContent value := by
  constructor
  · rintro ⟨contents, read⟩
    exact (contentsOf_eq_some_iff.1 read).1
  · intro all
    exact ⟨taken entries, contentsOf_eq_some_iff.2 ⟨all, rfl⟩⟩

/-- **Where fa_submission_from_request is safe.** It returns, NULL or a submission, without an
undefined access on exactly these payloads. -/
theorem submission_total_iff {json : Json.Parser} {feed : CString} {payload : Bytes} :
    (∃ found, faSubmissionFromRequest json feed payload = .ok found) ↔ Readable json payload := by
  constructor
  · rintro ⟨found, total⟩ members values parsed atArticles
    apply contentsOf_total_iff.1
    simp only [faSubmissionFromRequest, parsed, atArticles] at total
    cases folded : values.foldlM addRequestArticle (faSubmissionNew feed) with
    | error reason => simp [folded, Except.map] at total
    | ok fa =>
        obtain ⟨contents, read, -⟩ := foldlM_addRequestArticle.1 folded
        exact ⟨contents, read⟩
  · intro readable
    unfold faSubmissionFromRequest
    split
    · rename_i members parsed
      split
      · exact ⟨none, rfl⟩
      · rename_i values atArticles
        obtain ⟨contents, read⟩ :=
          contentsOf_total_iff.2 (readable members values parsed atArticles)
        rw [foldlM_addRequestArticle.2 ⟨contents, read, rfl⟩]
        exact ⟨_, rfl⟩
      · exact ⟨_, rfl⟩
    · exact ⟨none, rfl⟩

/-! ## What a payload submits -/

/-- Only an array has entries to go through. -/
def entriesOf : Json.Value → List Json.Value
  | .array values => values
  | _ => []

/-- The payload is an object, and the search for the articles comes to these entries. -/
def FoundArticles (json : Json.Parser) (payload : Bytes) (entries : List Json.Value) : Prop :=
  ∃ members found, json.parse payload = some (.object members) ∧
    jsonFindObject (lit "articles") (.object members) = some found ∧ entries = entriesOf found

theorem FoundArticles.unique {json : Json.Parser} {payload : Bytes} {entries others : List Json.Value}
    (found : FoundArticles json payload entries) (found' : FoundArticles json payload others) :
    entries = others := by
  obtain ⟨members, value, parsed, at_, rfl⟩ := found
  obtain ⟨members', value', parsed', at', rfl⟩ := found'
  cases parsed.symm.trans parsed'
  cases at_.symm.trans at'
  rfl

/-- A payload submits the contents taken from the entries found, if each entry has one. -/
theorem submitted_eq_some_iff {json : Json.Parser} {payload : Bytes} {contents : List Bytes} :
    submitted json payload = some contents ↔ ∃ entries, FoundArticles json payload entries ∧
      (∀ value ∈ entries, HasContent value) ∧ contents = taken entries := by
  constructor
  · intro submits
    unfold submitted at submits
    split at submits
    · rename_i members parsed
      split at submits
      · cases submits
      · rename_i values atArticles
        exact ⟨values, ⟨members, _, parsed, atArticles, rfl⟩, contentsOf_eq_some_iff.1 submits⟩
      · rename_i found noArray atArticles
        have none : entriesOf found = [] := by
          cases found with
          | array values => exact absurd rfl (noArray values)
          | _ => rfl
        cases submits
        exact ⟨[], ⟨members, found, parsed, atArticles, none.symm⟩, by simp, rfl⟩
    · cases submits
  · rintro ⟨entries, ⟨members, found, parsed, atArticles, rfl⟩, readable, rfl⟩
    simp only [submitted, parsed, atArticles]
    cases found with
    | array values => exact contentsOf_eq_some_iff.2 ⟨readable, rfl⟩
    | _ => rfl

/-- An element without a content, and one whose content is an empty array. -/
theorem bare_element_followed : ¬ ∀ payload : Bytes,
    ∃ found, faSubmissionFromRequest Json.reader (lit "f") payload = .ok found := by
  intro all
  obtain ⟨found, total⟩ := all (ascii "\x7b\"articles\":[\x7b\x7d]\x7d")
  have followed : faSubmissionFromRequest Json.reader (lit "f")
      (ascii "\x7b\"articles\":[\x7b\x7d]\x7d") = .error .nullPointer := by decide +kernel
  rw [followed] at total
  cases total

example : faSubmissionFromRequest Json.reader (lit "f")
    (ascii "\x7b\"articles\":[\x7b\"content\":[]\x7d]\x7d") = .error .outOfBounds := by
  decide +kernel

end Feedserver.Articles
