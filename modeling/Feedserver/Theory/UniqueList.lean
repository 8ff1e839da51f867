/-
# Theory.UniqueList — ordered lists without duplicates

A list in which nothing stands twice, under two operations on many elements at once:
`addAll` appends, in the order given, those that are not there; `removeAll` takes out
those that are, and leaves the order of the rest. Each is also what one element after
another gives (`addAll_cons`, `removeAll_cons`), which is how a loop computes it.
-/
import Mathlib.Data.List.Basic
import Mathlib.Data.List.Nodup

namespace Feedserver.Theory

set_option autoImplicit false

@[ext] structure UniqueList (α : Type) where
  items : List α
  nodup : items.Nodup
deriving DecidableEq

namespace UniqueList

variable {α : Type} [DecidableEq α]

theorem nodup_eraseDups (l : List α) : l.eraseDups.Nodup := by
  generalize bound : l.length = n
  induction n using Nat.strongRecOn generalizing l with
  | ind n ih =>
      cases l with
      | nil => simp
      | cons x xs =>
          rw [List.eraseDups_cons, List.nodup_cons]
          refine ⟨by simp [List.mem_eraseDups], ih _ ?_ _ rfl⟩
          have := List.length_filter_le (fun b => !b == x) xs
          simp at bound
          omega

def empty : UniqueList α := ⟨[], .nil⟩

/-- The new elements of `names`, each once, after what is there. -/
def addAll (l : UniqueList α) (names : List α) : UniqueList α where
  items := l.items ++ (names.filter fun x => x ∉ l.items).eraseDups
  nodup := by
    refine List.nodup_append.2 ⟨l.nodup, nodup_eraseDups _, ?_⟩
    intro x old y new same
    subst same
    have new := List.mem_filter.1 (List.mem_eraseDups.1 new)
    simp [old] at new

theorem addAll_items (l : UniqueList α) (names : List α) : (l.addAll names).items =
    l.items ++ (names.filter fun x => x ∉ l.items).eraseDups := rfl

def removeAll (l : UniqueList α) (names : List α) : UniqueList α :=
  ⟨l.items.filter fun x => x ∉ names, l.nodup.filter _⟩

def add (l : UniqueList α) (x : α) : UniqueList α :=
  if member : x ∈ l.items then l
  else ⟨l.items ++ [x], by
    refine List.nodup_append.2 ⟨l.nodup, List.nodup_singleton x, ?_⟩
    intro y old z new same
    exact member (List.mem_singleton.1 new ▸ same ▸ old)⟩

def remove (l : UniqueList α) (x : α) : UniqueList α := ⟨l.items.erase x, l.nodup.erase x⟩

@[simp] theorem addAll_nil (l : UniqueList α) : l.addAll [] = l := by
  ext1
  simp [addAll]

theorem addAll_cons (l : UniqueList α) (x : α) (names : List α) :
    l.addAll (x :: names) = (l.add x).addAll names := by
  ext1
  by_cases member : x ∈ l.items
  · simp [addAll, add, member]
  · have later : (names.filter fun y => y ∉ l.items ++ [x]) =
        (names.filter fun y => y ∉ l.items).filter fun y => !y == x := by
      rw [List.filter_filter]
      apply List.filter_congr
      intro y _
      by_cases same : y = x <;> simp [same]
    have first : ((x :: names).filter fun y => y ∉ l.items) =
        x :: names.filter fun y => y ∉ l.items := List.filter_cons_of_pos (by simpa using member)
    have grown : (l.add x).items = l.items ++ [x] := by simp [add, member]
    rw [addAll_items, addAll_items, first, List.eraseDups_cons, ← later, grown]
    simp

theorem addAll_empty (names : List α) : (empty.addAll names).items = names.eraseDups := by
  simp [addAll, empty]

@[simp] theorem mem_addAll {l : UniqueList α} {names : List α} {x : α} :
    x ∈ (l.addAll names).items ↔ x ∈ l.items ∨ x ∈ names := by
  simp only [addAll, List.mem_append, List.mem_eraseDups, List.mem_filter, decide_eq_true_eq]
  tauto

@[simp] theorem removeAll_nil (l : UniqueList α) : l.removeAll [] = l := by
  ext1
  simp [removeAll]

theorem removeAll_cons (l : UniqueList α) (x : α) (names : List α) :
    l.removeAll (x :: names) = (l.remove x).removeAll names := by
  ext1
  simp only [removeAll, remove, l.nodup.erase_eq_filter, List.filter_filter]
  apply List.filter_congr
  intro y _
  simp only [List.mem_cons, not_or, Bool.decide_and]
  rw [Bool.and_comm]
  congr 1
  by_cases same : y = x <;> simp [same]

@[simp] theorem mem_removeAll {l : UniqueList α} {names : List α} {x : α} :
    x ∈ (l.removeAll names).items ↔ x ∈ l.items ∧ x ∉ names := by
  simp [removeAll]

theorem add_of_mem {l : UniqueList α} {x : α} (member : x ∈ l.items) : l.add x = l := by
  simp [add, member]

theorem remove_of_not_mem {l : UniqueList α} {x : α} (absent : x ∉ l.items) : l.remove x = l := by
  ext1
  exact List.erase_of_not_mem absent

theorem mem_add {l : UniqueList α} {x y : α} :
    y ∈ (l.add x).items ↔ y ∈ l.items ∨ y = x := by
  unfold add
  split
  · rename_i member
    exact ⟨.inl, fun h => h.elim id fun same => same ▸ member⟩
  · simp

theorem add_ne_iff {l : UniqueList α} {x : α} : l.add x ≠ l ↔ x ∉ l.items := by
  constructor
  · intro changed member
    exact changed (add_of_mem member)
  · intro absent same
    apply absent
    rw [← same]
    exact mem_add.2 (.inr rfl)

theorem remove_ne_iff {l : UniqueList α} {x : α} : l.remove x ≠ l ↔ x ∈ l.items := by
  constructor
  · intro changed
    by_contra absent
    exact changed (remove_of_not_mem absent)
  · intro member same
    have gone : x ∉ (l.remove x).items := l.nodup.not_mem_erase
    rw [same] at gone
    exact gone member

/-- The others stay as they are, in their order. -/
theorem filter_add (l : UniqueList α) {x : α} {others : α → Bool} (excluded : others x = false) :
    (l.add x).items.filter others = l.items.filter others := by
  unfold add
  split
  · rfl
  · simp [excluded]

theorem filter_remove (l : UniqueList α) {x : α} {others : α → Bool} (excluded : others x = false) :
    (l.remove x).items.filter others = l.items.filter others := by
  simp only [remove, l.nodup.erase_eq_filter, List.filter_filter]
  apply List.filter_congr
  intro y _
  by_cases same : y = x
  · subst same
    simp [excluded]
  · simp [same]

theorem addAll_filter_ne {l : UniqueList α} {x : α} (member : x ∈ l.items) (names : List α) :
    l.addAll (names.filter fun y => !y == x) = l.addAll names := by
  ext1
  have same : ((names.filter fun y => !y == x).filter fun y => y ∉ l.items) =
      names.filter fun y => y ∉ l.items := by
    rw [List.filter_filter]
    apply List.filter_congr
    intro y _
    by_cases own : y = x <;> simp [own, member]
  rw [addAll_items, addAll_items, same]

/-- A name given twice is added once. -/
theorem addAll_eraseDups (l : UniqueList α) (names : List α) :
    l.addAll names.eraseDups = l.addAll names := by
  generalize bound : names.length = n
  induction n using Nat.strongRecOn generalizing l names with
  | ind n ih =>
      cases names with
      | nil => rfl
      | cons x xs =>
          have shorter := List.length_filter_le (fun y => !y == x) xs
          simp at bound
          rw [List.eraseDups_cons, addAll_cons, addAll_cons, ih _ (by omega) _ _ rfl]
          exact addAll_filter_ne (mem_add.2 (.inr rfl)) xs

theorem removeAll_eraseDups (l : UniqueList α) (names : List α) :
    l.removeAll names.eraseDups = l.removeAll names := by
  ext1
  simp [removeAll, List.mem_eraseDups]

end UniqueList

end Feedserver.Theory
