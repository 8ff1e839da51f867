/-
# Theory.Lifetimes — resources that are used, and freed once

A run uses resources it owns and frees them one by one. `after live acts` is what is left of
the resources `live` when these acts have been gone through, and nothing at all when one of
them uses or frees a resource that is not live at that moment.

* `after_append`, `after_frame`: acts follow one another, and more may be live meanwhile.
* `after_frees`: all that is live can be freed; `after_perm`: in whatever order it is listed.
* `freed_iff`: what is live is freed, or it is left.
* `freedOnce_of_after`: what is live before and not afterwards has been freed exactly once,
  and was not used from then on.
-/
import Mathlib.Data.List.Nodup

namespace Feedserver.Theory

set_option autoImplicit false

/-- What is done with a resource. -/
inductive Act (ρ : Type) where
  | use (r : ρ)
  | free (r : ρ)
deriving DecidableEq

namespace Lifetimes

variable {ρ : Type} [DecidableEq ρ]

/-- What is left of the live resources, if every act is on one that is live. -/
def after : List ρ → List (Act ρ) → Option (List ρ)
  | live, [] => some live
  | live, .use r :: acts => if r ∈ live then after live acts else none
  | live, .free r :: acts => if r ∈ live then after (live.erase r) acts else none

/-- The resource is freed once, and it is neither used nor freed from then on. -/
def FreedOnce (r : ρ) (acts : List (Act ρ)) : Prop :=
  ∃ front back, acts = front ++ .free r :: back ∧ .free r ∉ front ∧ .use r ∉ back ∧ .free r ∉ back

variable {live left : List ρ} {acts : List (Act ρ)} {r : ρ}

theorem after_use_iff : after live (.use r :: acts) = some left ↔
    r ∈ live ∧ after live acts = some left := by
  rw [after]
  by_cases member : r ∈ live <;> simp [member]

theorem after_free_iff : after live (.free r :: acts) = some left ↔
    r ∈ live ∧ after (live.erase r) acts = some left := by
  rw [after]
  by_cases member : r ∈ live <;> simp [member]

theorem after_append (live : List ρ) (acts acts' : List (Act ρ)) :
    after live (acts ++ acts') = (after live acts).bind fun left => after left acts' := by
  induction acts generalizing live with
  | nil => rfl
  | cons act rest ih =>
      cases act with
      | use r =>
          rw [List.cons_append, after, after]
          by_cases member : r ∈ live
          · rw [if_pos member, if_pos member, ih]
          · rw [if_neg member, if_neg member]
            rfl
      | free r =>
          rw [List.cons_append, after, after]
          by_cases member : r ∈ live
          · rw [if_pos member, if_pos member, ih]
          · rw [if_neg member, if_neg member]
            rfl

/-- The acts may as well be done while more is live. -/
theorem after_frame (ends : after live acts = some left) (more : List ρ) :
    after (live ++ more) acts = some (left ++ more) := by
  induction acts generalizing live with
  | nil =>
      obtain rfl := Option.some.inj ends
      rfl
  | cons act rest ih =>
      cases act with
      | use r =>
          obtain ⟨member, later⟩ := after_use_iff.1 ends
          exact after_use_iff.2 ⟨List.mem_append_left more member, ih later⟩
      | free r =>
          obtain ⟨member, later⟩ := after_free_iff.1 ends
          apply after_free_iff.2
          refine ⟨List.mem_append_left more member, ?_⟩
          rw [List.erase_append_left more member]
          exact ih later

theorem after_frees (live : List ρ) : after live (live.map .free) = some [] := by
  induction live with
  | nil => rfl
  | cons r rest ih =>
      rw [List.map_cons]
      apply after_free_iff.2
      rw [List.erase_cons_head]
      exact ⟨List.mem_cons_self, ih⟩

/-- In whatever order the live resources are listed. -/
theorem after_perm {live' : List ρ} (perm : live.Perm live') (ends : after live acts = some left) :
    ∃ left', after live' acts = some left' ∧ left.Perm left' := by
  induction acts generalizing live live' with
  | nil =>
      obtain rfl := Option.some.inj ends
      exact ⟨live', rfl, perm⟩
  | cons act rest ih =>
      cases act with
      | use r =>
          obtain ⟨member, later⟩ := after_use_iff.1 ends
          obtain ⟨left', ends', perm'⟩ := ih perm later
          exact ⟨left', after_use_iff.2 ⟨perm.mem_iff.1 member, ends'⟩, perm'⟩
      | free r =>
          obtain ⟨member, later⟩ := after_free_iff.1 ends
          obtain ⟨left', ends', perm'⟩ := ih (perm.erase r) later
          exact ⟨left', after_free_iff.2 ⟨perm.mem_iff.1 member, ends'⟩, perm'⟩

theorem sublist_of_after (ends : after live acts = some left) : left.Sublist live := by
  induction acts generalizing live with
  | nil =>
      obtain rfl := Option.some.inj ends
      exact .refl _
  | cons act rest ih =>
      cases act with
      | use r => exact ih (after_use_iff.1 ends).2
      | free r => exact (ih (after_free_iff.1 ends).2).trans List.erase_sublist

/-- A resource that is not live is not touched. -/
theorem untouched_of_after (ends : after live acts = some left) (never : r ∉ live) :
    .use r ∉ acts ∧ .free r ∉ acts := by
  induction acts generalizing live with
  | nil => simp
  | cons act rest ih =>
      cases act with
      | use s =>
          obtain ⟨member, later⟩ := after_use_iff.1 ends
          have other : r ≠ s := fun same => never (same ▸ member)
          simpa [other] using ih later never
      | free s =>
          obtain ⟨member, later⟩ := after_free_iff.1 ends
          have other : r ≠ s := fun same => never (same ▸ member)
          simpa [other] using ih later fun inside => never (List.mem_of_mem_erase inside)

/-- **Exactly once.** -/
theorem freedOnce_of_after (nodup : live.Nodup) (ends : after live acts = some left)
    (was : r ∈ live) (gone : r ∉ left) : FreedOnce r acts := by
  induction acts generalizing live with
  | nil =>
      obtain rfl := Option.some.inj ends
      exact absurd was gone
  | cons act rest ih =>
      cases act with
      | use s =>
          obtain ⟨front, back, rfl, before, unused, unfreed⟩ :=
            ih nodup (after_use_iff.1 ends).2 was
          exact ⟨.use s :: front, back, rfl, by simpa using before, unused, unfreed⟩
      | free s =>
          obtain ⟨-, later⟩ := after_free_iff.1 ends
          by_cases here : r = s
          · subst here
            obtain ⟨unused, unfreed⟩ := untouched_of_after later nodup.not_mem_erase
            exact ⟨[], rest, rfl, by simp, unused, unfreed⟩
          · obtain ⟨front, back, rfl, before, unused, unfreed⟩ :=
              ih (nodup.erase s) later ((List.mem_erase_of_ne here).2 was)
            exact ⟨.free s :: front, back, rfl, by simpa [here] using before, unused, unfreed⟩

/-- What is live is freed if and only if it is not left. -/
theorem freed_iff (nodup : live.Nodup) (ends : after live acts = some left) (was : r ∈ live) :
    .free r ∈ acts ↔ r ∉ left := by
  constructor
  · intro freed
    obtain ⟨front, back, rfl⟩ := List.append_of_mem freed
    rw [after_append] at ends
    obtain ⟨between, before, behind⟩ := Option.bind_eq_some_iff.1 ends
    have later := (after_free_iff.1 behind).2
    have gone : r ∉ between.erase r := ((sublist_of_after before).nodup nodup).not_mem_erase
    exact fun kept => gone ((sublist_of_after later).subset kept)
  · intro gone
    obtain ⟨front, back, rfl, -⟩ := freedOnce_of_after nodup ends was gone
    simp

end Lifetimes

end Feedserver.Theory
