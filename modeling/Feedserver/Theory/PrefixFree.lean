/-
# Theory.PrefixFree — texts that can be told apart from the front

`PrefixFreeOn s f`: among the words `f a` of `a ∈ s`, none is the beginning of another, so
whatever follows a word, the word is determined. Put one after another, such words can be
read off again.

* `.flatMap_injOn`, `.intercalate_injOn`: a list of words, with or without a separator,
  determines the list.
* `.terminated`: words up to a stop symbol that begins none of them are such a word again.
* `.seq`: two words in a row are.
-/
import Mathlib.Data.List.Basic
import Mathlib.Data.Set.Function

namespace Feedserver.Theory

set_option autoImplicit false

variable {α β γ : Type}

def PrefixFreeOn (s : Set α) (f : α → List γ) : Prop :=
  ∀ ⦃a b : α⦄ ⦃x y : List γ⦄, a ∈ s → b ∈ s → f a ++ x = f b ++ y → a = b ∧ x = y

/-- The lists of which every element is in the set. -/
def listsOf (s : Set α) : Set (List α) := {l | ∀ a ∈ l, a ∈ s}

namespace PrefixFreeOn

variable {s : Set α} {t : Set β} {f : α → List γ} {g : β → List γ}

/-- Words of one length are prefix free when they differ. -/
theorem of_length {n : Nat} (length : ∀ a ∈ s, (f a).length = n) (inj : Set.InjOn f s) :
    PrefixFreeOn s f := by
  intro a b x y inA inB same
  obtain ⟨word, rest⟩ := List.append_inj same (by rw [length a inA, length b inB])
  exact ⟨inj inA inB word, rest⟩

/-- The same text in front of every word. -/
theorem behind (free : PrefixFreeOn s f) (front : List γ) : PrefixFreeOn s fun a => front ++ f a := by
  intro a b x y inA inB same
  simp only [List.append_assoc, List.append_cancel_left_eq] at same
  exact free inA inB same

/-- The same text after every word. -/
theorem before (free : PrefixFreeOn s f) (back : List γ) : PrefixFreeOn s fun a => f a ++ back := by
  intro a b x y inA inB same
  simp only [List.append_assoc] at same
  obtain ⟨rfl, rest⟩ := free inA inB same
  exact ⟨rfl, List.append_cancel_left rest⟩

/-- A word of the one kind, then a word of the other. -/
theorem seq (free : PrefixFreeOn s f) (free' : PrefixFreeOn t g) :
    PrefixFreeOn (s ×ˢ t) fun p : α × β => f p.1 ++ g p.2 := by
  rintro ⟨a, a'⟩ ⟨b, b'⟩ x y ⟨inA, inA'⟩ ⟨inB, inB'⟩ same
  simp only [List.append_assoc] at same
  obtain ⟨rfl, second⟩ := free inA inB same
  obtain ⟨rfl, rest⟩ := free' inA' inB' second
  exact ⟨rfl, rest⟩

/-- Words in a row, closed by a symbol that no word begins with. -/
theorem terminated (free : PrefixFreeOn s f) {stop : γ}
    (begins : ∀ a ∈ s, ∃ c rest, f a = c :: rest ∧ c ≠ stop) :
    PrefixFreeOn (listsOf s) fun l => l.flatMap f ++ [stop] := by
  intro l m x y inL inM same
  induction l generalizing m with
  | nil =>
      cases m with
      | nil => exact ⟨rfl, by simpa using same⟩
      | cons b m =>
          obtain ⟨c, rest, word, other⟩ := begins b (inM b List.mem_cons_self)
          simp only [List.flatMap_nil, List.flatMap_cons, word, List.nil_append, List.cons_append,
            List.cons.injEq] at same
          exact absurd same.1.symm other
  | cons a l ih =>
      cases m with
      | nil =>
          obtain ⟨c, rest, word, other⟩ := begins a (inL a List.mem_cons_self)
          simp only [List.flatMap_nil, List.flatMap_cons, word, List.nil_append, List.cons_append,
            List.cons.injEq] at same
          exact absurd same.1 other
      | cons b m =>
          simp only [List.flatMap_cons, List.append_assoc] at same
          obtain ⟨rfl, others⟩ := free (inL a List.mem_cons_self) (inM b List.mem_cons_self) same
          obtain ⟨rfl, rest⟩ := ih (fun c member => inL c (List.mem_cons_of_mem _ member))
            (fun c member => inM c (List.mem_cons_of_mem _ member)) (by simpa using others)
          exact ⟨rfl, rest⟩

theorem flatMap_injOn (free : PrefixFreeOn s f) (nonempty : ∀ a ∈ s, f a ≠ []) :
    Set.InjOn (fun l : List α => l.flatMap f) (listsOf s) := by
  intro l inL m inM same
  induction l generalizing m with
  | nil =>
      cases m with
      | nil => rfl
      | cons b m =>
          have empty : f b = [] := (List.append_eq_nil_iff.1 same.symm).1
          exact absurd empty (nonempty b (inM b List.mem_cons_self))
  | cons a l ih =>
      cases m with
      | nil =>
          have empty : f a = [] := (List.append_eq_nil_iff.1 same).1
          exact absurd empty (nonempty a (inL a List.mem_cons_self))
      | cons b m =>
          obtain ⟨rfl, rest⟩ := free (inL a List.mem_cons_self) (inM b List.mem_cons_self) same
          rw [ih (fun c member => inL c (List.mem_cons_of_mem _ member))
            (fun c member => inM c (List.mem_cons_of_mem _ member)) rest]

end PrefixFreeOn

/-- Separators between the words, or one behind each. -/
theorem intercalate_append_separator (separator : List γ) (f : α → List γ) {l : List α}
    (nonempty : l ≠ []) : List.intercalate separator (l.map f) ++ separator =
      l.flatMap fun a => f a ++ separator := by
  induction l with
  | nil => exact absurd rfl nonempty
  | cons a l ih =>
      cases l with
      | nil => simp
      | cons b l =>
          have rest := ih (by simp)
          rw [List.map_cons, List.map_cons, List.intercalate_cons_cons, List.flatMap_cons, ← rest,
            List.map_cons]
          simp only [List.append_assoc]

theorem intercalate_ne_nil {separator : List γ} {f : α → List γ} {l : List α} (nonempty : l ≠ [])
    (words : ∀ a ∈ l, f a ≠ []) : List.intercalate separator (l.map f) ≠ [] := by
  cases l with
  | nil => exact absurd rfl nonempty
  | cons a l =>
      have first : f a ≠ [] := words a List.mem_cons_self
      cases l with
      | nil => simpa using first
      | cons b l =>
          rw [List.map_cons, List.map_cons, List.intercalate_cons_cons]
          simp [first]

theorem PrefixFreeOn.intercalate_injOn {s : Set α} {f : α → List γ} {separator : List γ}
    (free : PrefixFreeOn s fun a => f a ++ separator) (nonempty : ∀ a ∈ s, f a ≠ []) :
    Set.InjOn (fun l : List α => List.intercalate separator (l.map f)) (listsOf s) := by
  intro l inL m inM same
  change List.intercalate separator (l.map f) = List.intercalate separator (m.map f) at same
  by_cases emptyL : l = []
  · by_cases emptyM : m = []
    · rw [emptyL, emptyM]
    · rw [emptyL] at same
      exact absurd same.symm (intercalate_ne_nil emptyM fun a member => nonempty a (inM a member))
  · by_cases emptyM : m = []
    · rw [emptyM] at same
      exact absurd same (intercalate_ne_nil emptyL fun a member => nonempty a (inL a member))
    · refine free.flatMap_injOn (fun a member => ?_) inL inM ?_
      · simp [nonempty a member]
      · show l.flatMap (fun a => f a ++ separator) = m.flatMap fun a => f a ++ separator
        rw [← intercalate_append_separator separator f emptyL,
          ← intercalate_append_separator separator f emptyM, same]

end Feedserver.Theory
