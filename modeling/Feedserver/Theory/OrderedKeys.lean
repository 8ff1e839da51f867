/-
# Theory.OrderedKeys — a set of strings in lexicographic order, and prefix scans over it

The strings are lists over any ordered alphabet. A store of keys is its sorted list, and
sortedness is a field, so what an iterator visits is a statement about one list:

* `seek k` is what lies in front of an iterator positioned at the first key not below `k`.
* `scan_eq_filter`: stepping on from `seek p` while the key begins with `p` visits every
  key that begins with `p`, each once, in order, and nothing else. This is where the
  lexicographic order matters: the keys that extend `p` are an interval starting at `p`.
* `takeWhile_seek_eq_scan`: any test that decides the prefix does the same.
-/
import Mathlib.Data.List.Lex
import Mathlib.Data.List.Sort
import Mathlib.Order.Defs.LinearOrder

namespace Feedserver.Theory

set_option autoImplicit false

variable {β : Type} [LinearOrder β]

/-! ## Lexicographic order and prefixes -/

namespace Lexicographic

theorem not_lt_of_lt {a b p : List β} (below : ¬ a < p) (less : a < b) : ¬ b < p :=
  fun h => below (lt_trans less h)

theorem prefix_not_lt {p k : List β} (isPrefix : p <+: k) : ¬ k < p := by
  obtain ⟨t, rfl⟩ := isPrefix
  induction p with
  | nil => simp
  | cons x xs ih => simpa using ih

/-- Between `p` and a string that begins with `p`, every string begins with `p`. -/
theorem prefix_of_between {p a b : List β} (above : ¬ a < p) (less : a < b) (isPrefix : p <+: b) :
    p <+: a := by
  induction p generalizing a b with
  | nil => exact List.nil_prefix
  | cons x xs ih =>
      obtain ⟨t, rfl⟩ := isPrefix
      cases a with
      | nil => simp at above
      | cons y ys =>
          simp only [List.cons_append, List.cons_lt_cons_iff, not_or, not_and] at above less
          have same : y = x := by
            rcases less with less | ⟨same, -⟩
            · exact absurd less above.1
            · exact same
          subst same
          rw [List.prefix_cons_inj]
          refine ih (above.2 rfl) ?_ ⟨t, rfl⟩
          rcases less with less | ⟨-, less⟩
          · exact absurd less (lt_irrefl y)
          · exact less

theorem append_lt_append_iff {p a b : List β} : p ++ a < p ++ b ↔ a < b := by
  induction p with
  | nil => rfl
  | cons x xs ih => simpa using ih

end Lexicographic

/-! ## Stores of keys -/

/-- A set of strings, as its strictly ascending list. -/
structure OrderedKeys (β : Type) [LinearOrder β] where
  keys : List (List β)
  ascending : keys.Pairwise (· < ·)

namespace OrderedKeys

open Lexicographic

instance : Membership (List β) (OrderedKeys β) where
  mem store k := k ∈ store.keys

theorem mem_iff {store : OrderedKeys β} {k : List β} : k ∈ store ↔ k ∈ store.keys := Iff.rfl

/-- A store is its keys. -/
theorem eq_of_mem_iff {store store' : OrderedKeys β} (same : ∀ k, k ∈ store ↔ k ∈ store') :
    store = store' := by
  obtain ⟨keys, ascending⟩ := store
  obtain ⟨keys', ascending'⟩ := store'
  have perm : keys.Perm keys' := (List.perm_ext_iff_of_nodup
    (ascending.imp fun less => ne_of_lt less) (ascending'.imp fun less => ne_of_lt less)).2 same
  obtain rfl := perm.eq_of_pairwise (fun _ _ _ _ less more => absurd more (lt_asymm less))
    ascending ascending'
  rfl

def empty : OrderedKeys β := ⟨[], .nil⟩

def insertList (k : List β) : List (List β) → List (List β)
  | [] => [k]
  | x :: xs => if k < x then k :: x :: xs else if k = x then x :: xs else x :: insertList k xs

theorem mem_insertList {k y : List β} {l : List (List β)} :
    y ∈ insertList k l ↔ y = k ∨ y ∈ l := by
  induction l with
  | nil => simp [insertList]
  | cons x xs ih =>
      simp only [insertList]
      split
      · simp
      · split
        · rename_i same; simp [same]
        · simp only [List.mem_cons, ih]; tauto

theorem insertList_ascending {k : List β} {l : List (List β)} (asc : l.Pairwise (· < ·)) :
    (insertList k l).Pairwise (· < ·) := by
  induction l with
  | nil => simp [insertList]
  | cons x xs ih =>
      obtain ⟨below, rest⟩ := List.pairwise_cons.1 asc
      simp only [insertList]
      split
      · rename_i less
        refine List.pairwise_cons.2 ⟨fun y member => ?_, asc⟩
        rcases List.mem_cons.1 member with rfl | member
        · exact less
        · exact lt_trans less (below y member)
      · split
        · exact asc
        · rename_i notLess different
          refine List.pairwise_cons.2 ⟨fun y member => ?_, ih rest⟩
          rcases mem_insertList.1 member with rfl | member
          · rcases lt_trichotomy x y with less | same | less
            · exact less
            · exact absurd same.symm different
            · exact absurd less notLess
          · exact below y member

/-- Put one key; a key that is there already stays there once. -/
def insert (k : List β) (store : OrderedKeys β) : OrderedKeys β :=
  ⟨insertList k store.keys, insertList_ascending store.ascending⟩

@[simp] theorem mem_insert {k y : List β} {store : OrderedKeys β} :
    y ∈ store.insert k ↔ y = k ∨ y ∈ store := mem_insertList

@[simp] theorem not_mem_empty (y : List β) : ¬ y ∈ (empty : OrderedKeys β) := by
  simp [mem_iff, empty]

/-! ## Iterators -/

/-- The keys in front of an iterator positioned at the first key not below `k`. -/
def seek (k : List β) (l : List (List β)) : List (List β) := l.dropWhile fun x => x < k

/-- What an iterator at `seek p` visits before the first key that does not begin with `p`. -/
def scan (p : List β) (l : List (List β)) : List (List β) :=
  (seek p l).takeWhile fun x => p.isPrefixOf x

/-- Any test for the prefix does. -/
theorem takeWhile_seek_eq_scan {p : List β} {test : List β → Bool}
    (tests : ∀ x, test x = true ↔ p <+: x) (l : List (List β)) :
    (seek p l).takeWhile test = scan p l := by
  unfold scan
  congr 1
  funext x
  rw [Bool.eq_iff_iff, tests, List.isPrefixOf_iff_prefix]

theorem takeWhile_prefix_eq_filter {p : List β} {l : List (List β)} (asc : l.Pairwise (· < ·))
    (above : ∀ x ∈ l, ¬ x < p) :
    (l.takeWhile fun x => p.isPrefixOf x) = l.filter fun x => p.isPrefixOf x := by
  induction l with
  | nil => rfl
  | cons x xs ih =>
      obtain ⟨below, rest⟩ := List.pairwise_cons.1 asc
      by_cases isPrefix : p.isPrefixOf x = true
      · rw [List.takeWhile_cons_of_pos isPrefix, List.filter_cons_of_pos isPrefix,
          ih rest fun y member => above y (List.mem_cons_of_mem _ member)]
      · -- nothing past `x` can begin with `p`, or `x` would
        rw [List.takeWhile_cons_of_neg isPrefix, List.filter_cons_of_neg isPrefix]
        symm
        rw [List.filter_eq_nil_iff]
        intro y member later
        exact isPrefix (List.isPrefixOf_iff_prefix.2 (prefix_of_between
          (above x List.mem_cons_self) (below y member) (List.isPrefixOf_iff_prefix.1 later)))

/-- A prefix scan visits exactly the keys with that prefix, each once and in order. -/
theorem scan_eq_filter {p : List β} {l : List (List β)} (asc : l.Pairwise (· < ·)) :
    scan p l = l.filter fun x => p.isPrefixOf x := by
  unfold scan seek
  induction l with
  | nil => rfl
  | cons x xs ih =>
      obtain ⟨below, rest⟩ := List.pairwise_cons.1 asc
      by_cases less : x < p
      · have notPrefix : ¬ p.isPrefixOf x = true := fun isPrefix =>
          prefix_not_lt (List.isPrefixOf_iff_prefix.1 isPrefix) less
        rw [List.dropWhile_cons_of_pos (by simpa using less), List.filter_cons_of_neg notPrefix,
          ih rest]
      · rw [List.dropWhile_cons_of_neg (by simpa using less)]
        apply takeWhile_prefix_eq_filter asc
        intro y member
        rcases List.mem_cons.1 member with rfl | member
        · exact less
        · exact not_lt_of_lt less (below y member)

theorem mem_scan_iff {p : List β} {store : OrderedKeys β} {k : List β} :
    k ∈ scan p store.keys ↔ k ∈ store ∧ p <+: k := by
  rw [scan_eq_filter store.ascending, List.mem_filter, List.isPrefixOf_iff_prefix, mem_iff]

end OrderedKeys

end Feedserver.Theory
