/-
# Theory.Scanning — items read off the front of a list of words

A `Language` says how an item is spelled in words, and what a list of words begins with: with
an item, with something that ends the reading, or with a mistake. Any words are the spelling of
some items and then of something that is no item, and they are so in one way.

* `exists_scanned`, `Scanned.unique`: the items, and what is left.
* `Loop.run`: a loop that goes on behind each item it finds is a fold over the items, up to the
  mistake if there is one.
* `Loop.ok_iff`, `Loop.error_iff`: when it comes back, with what, and when it does not.
-/
import Mathlib.Data.List.Basic

namespace Feedserver.Theory

set_option autoImplicit false

namespace Scanning

variable {α β ε σ : Type}

/-- What a list of words begins with. -/
inductive Front (β ε : Type) where
  | ends
  | item (b : β)
  | wrong (e : ε)

/-- How items are spelled and recognised. -/
structure Language (α β ε : Type) where
  front : List α → Front β ε
  spell : β → List α
  IsItem : β → Prop
  front_iff : ∀ words b, front words = .item b ↔ IsItem b ∧ spell b <+: words
  spell_ne : ∀ b, spell b ≠ []

variable {L : Language α β ε} {words rest rest' : List α} {items items' : List β}

namespace Language

/-- The words are these items, and then the rest, which begins with no item. -/
structure Scanned (L : Language α β ε) (words : List α) (items : List β) (rest : List α) :
    Prop where
  spelled : words = items.flatMap L.spell ++ rest
  items : ∀ b ∈ items, L.IsItem b
  ended : ∀ b, L.front rest ≠ .item b

theorem front_spell {b : β} (isItem : L.IsItem b) (rest : List α) :
    L.front (L.spell b ++ rest) = .item b :=
  (L.front_iff _ b).2 ⟨isItem, List.prefix_append ..⟩

theorem Scanned.nil (ended : ∀ b, L.front rest ≠ .item b) : L.Scanned rest [] rest :=
  ⟨rfl, by simp, ended⟩

theorem Scanned.cons {b : β} (isItem : L.IsItem b) (scanned : L.Scanned words items rest) :
    L.Scanned (L.spell b ++ words) (b :: items) rest where
  spelled := by
    rw [scanned.spelled, List.flatMap_cons, List.append_assoc]
  items := List.forall_mem_cons.2 ⟨isItem, scanned.items⟩
  ended := scanned.ended

theorem exists_scanned (L : Language α β ε) (words : List α) :
    ∃ items rest, L.Scanned words items rest := by
  induction size : words.length using Nat.strongRecOn generalizing words with
  | _ n ih =>
      cases begins : L.front words with
      | ends => exact ⟨[], words, .nil (by simp [begins])⟩
      | wrong e => exact ⟨[], words, .nil (by simp [begins])⟩
      | item b =>
          obtain ⟨isItem, later, rfl⟩ := (L.front_iff words b).1 begins
          have shorter : later.length < n := by
            have some_ := List.length_pos_iff.2 (L.spell_ne b)
            rw [List.length_append] at size
            omega
          obtain ⟨items, rest, scanned⟩ := ih later.length shorter later rfl
          exact ⟨b :: items, rest, scanned.cons isItem⟩

theorem Scanned.unique (scanned : L.Scanned words items rest)
    (scanned' : L.Scanned words items' rest') : items = items' ∧ rest = rest' := by
  induction items generalizing words items' with
  | nil =>
      obtain rfl : words = rest := scanned.spelled
      cases items' with
      | nil => exact ⟨rfl, scanned'.spelled⟩
      | cons b _ =>
          have starts := scanned'.spelled
          rw [List.flatMap_cons, List.append_assoc] at starts
          exact absurd (starts ▸ front_spell (scanned'.items b List.mem_cons_self) _)
            (scanned.ended b)
  | cons b items ih =>
      obtain ⟨isItem, others⟩ := List.forall_mem_cons.1 scanned.items
      have starts := scanned.spelled
      rw [List.flatMap_cons, List.append_assoc] at starts
      have begins : L.front words = .item b := starts ▸ front_spell isItem _
      cases items' with
      | nil =>
          obtain rfl : words = rest' := scanned'.spelled
          exact absurd begins (scanned'.ended b)
      | cons b' items' =>
          obtain ⟨isItem', others'⟩ := List.forall_mem_cons.1 scanned'.items
          have starts' := scanned'.spelled
          rw [List.flatMap_cons, List.append_assoc] at starts'
          have begins' : L.front words = .item b' := starts' ▸ front_spell isItem' _
          obtain rfl : b = b' := by
            rw [begins] at begins'
            exact Front.item.inj begins'
          have behind := List.append_cancel_left (starts.symm.trans starts')
          obtain ⟨rfl, rfl⟩ := ih ⟨rfl, others, scanned.ended⟩ ⟨behind, others', scanned'.ended⟩
          exact ⟨rfl, rfl⟩

end Language

/-- A loop over the words, with a state, that takes one item in each round. -/
structure Loop (L : Language α β ε) (σ : Type) where
  run : σ → List α → Except ε (σ × List α)
  take : σ → β → σ
  Inv : σ → Prop
  keeps : ∀ s b, Inv s → L.IsItem b → Inv (take s b)
  ends : ∀ s words, Inv s → L.front words = .ends → run s words = .ok (s, words)
  wrong : ∀ s words e, Inv s → L.front words = .wrong e → run s words = .error e
  item : ∀ s b rest, Inv s → L.IsItem b → run s (L.spell b ++ rest) = run (take s b) rest

namespace Loop

variable (loop : Loop L σ) {s s' : σ} {e : ε}

/-- The items are taken, one after another. -/
theorem run_items (inv : loop.Inv s) (scanned : L.Scanned words items rest) :
    loop.run s words = loop.run (items.foldl loop.take s) rest ∧
      loop.Inv (items.foldl loop.take s) := by
  obtain ⟨rfl, all, -⟩ := scanned
  induction items generalizing s with
  | nil => exact ⟨rfl, inv⟩
  | cons b items ih =>
      obtain ⟨isItem, others⟩ := List.forall_mem_cons.1 all
      rw [List.flatMap_cons, List.append_assoc, loop.item s b _ inv isItem]
      exact ih (loop.keeps s b inv isItem) others

/-- **The loop comes back** when nothing wrong is in front of what ends it. -/
theorem ok_iff (inv : loop.Inv s) : loop.run s words = .ok (s', rest) ↔
    ∃ items, L.Scanned words items rest ∧ L.front rest = .ends ∧ s' = items.foldl loop.take s := by
  constructor
  · intro ran
    obtain ⟨items, behind, scanned⟩ := L.exists_scanned words
    obtain ⟨same, inv'⟩ := loop.run_items inv scanned
    rw [same] at ran
    cases begins : L.front behind with
    | item b => exact absurd begins (scanned.ended b)
    | wrong e =>
        rw [loop.wrong _ _ _ inv' begins] at ran
        cases ran
    | ends =>
        rw [loop.ends _ _ inv' begins] at ran
        cases ran
        exact ⟨items, scanned, begins, rfl⟩
  · rintro ⟨items, scanned, begins, rfl⟩
    obtain ⟨same, inv'⟩ := loop.run_items inv scanned
    rw [same, loop.ends _ _ inv' begins]

/-- **It does not** when it comes upon a mistake, and that is the one it reports. -/
theorem error_iff (inv : loop.Inv s) : loop.run s words = .error e ↔
    ∃ items rest, L.Scanned words items rest ∧ L.front rest = .wrong e := by
  constructor
  · intro ran
    obtain ⟨items, behind, scanned⟩ := L.exists_scanned words
    obtain ⟨same, inv'⟩ := loop.run_items inv scanned
    rw [same] at ran
    cases begins : L.front behind with
    | item b => exact absurd begins (scanned.ended b)
    | ends =>
        rw [loop.ends _ _ inv' begins] at ran
        cases ran
    | wrong e' =>
        rw [loop.wrong _ _ _ inv' begins] at ran
        cases ran
        exact ⟨items, behind, scanned, begins⟩
  · rintro ⟨items, rest, scanned, begins⟩
    obtain ⟨same, inv'⟩ := loop.run_items inv scanned
    rw [same, loop.wrong _ _ _ inv' begins]

end Loop

end Scanning

end Feedserver.Theory
