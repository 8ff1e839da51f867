/-
# Buffer.VcVector — vc_vector.c with its block of memory

`Source.VcString` takes a vector as the list of its elements. Here is what is under that list:
the block and its reserved size, the count, the growth by half and the copies, with offsets and
sizes in bytes as in the source. A computation reports which bytes of the block it touches,
and is stuck where the source would go below 0, use what was never written, or loop on.

A cell of the block is one element; one that has not been written holds `none`, and so does
whatever is read from behind the block. Allocations succeed: what the source does when they
fail is left out. Counts are natural numbers, since no block is so large that the product
of a count and an element size leaves a `size_t`.

* `Holds`: the block holds a list, and has room for two elements at least.
* `append_spec`, `popBack_spec`, `erase_spec`: each operation does what the operation of
  `Source` does to that list. `append` and `popBack` touch nothing outside of the block;
  `erase` does exactly when the block is full.
* `release_spec`: the release gives each element to the deleter, in order.
-/
import Feedserver.Source.VcString
import Feedserver.Theory.Lifetimes
import Feedserver.Theory.Rounding
import Feedserver.Theory.Traced

namespace Feedserver.Buffer

open Feedserver.Theory
open Traced (Ends report stuck)

set_option autoImplicit false

/-! ## The structure -/

def GROWTH_PRECISION : Nat := 53

def DEFAULT_COUNT_OF_ELEMENTS : Nat := 8

def MINIMUM_COUNT_OF_ELEMENTS : Nat := 2

inductive Event (α : Type) where
  /-- `size` bytes from `offset` on are read or written, of a block of `reserved` bytes -/
  | touch (offset size reserved : Nat)
  /-- a growth loop has come to an end -/
  | grow (needed capacity : Nat)
  /-- the deleter is called on an element -/
  | delete (value : α)
  /-- the owner of the elements follows one that is a pointer -/
  | follow (value : α)
deriving DecidableEq

inductive Stuck where
  /-- a `size_t` goes below 0 -/
  | underflow
  /-- a loop goes on for ever -/
  | endless
  /-- what is used was never written -/
  | unset
  /-- a pointer that is NULL is followed -/
  | nullPointer
deriving DecidableEq

/-- `struct vc_vector`; of the deleter, whether there is one. -/
structure VcVector (α : Type) where
  count : Nat
  elementSize : Nat
  reservedSize : Nat
  data : List (Option α)
  deleter : Bool
  positive : 0 < elementSize
  sized : data.length * elementSize = reservedSize

abbrev Vec (α β : Type) := Traced (VcVector α) (Event α) Stuck β

section Operations

variable {α : Type}

/-- `a - b` in a `size_t`. -/
def minus (a b : Nat) : Vec α Nat := if b ≤ a then pure (a - b) else stuck .underflow

/-! ## Element access, iterators, capacity -/

/-- Pointers into the block are offsets from `data`. -/
def vcVectorAt (v : VcVector α) (index : Nat) : Nat := index * v.elementSize

def vcVectorBegin (_ : VcVector α) : Nat := 0

def vcVectorEnd (v : VcVector α) : Nat := v.elementSize * v.count

def vcVectorNext (v : VcVector α) (i : Nat) : Nat := i + v.elementSize

def vcVectorCount (v : VcVector α) : Nat := v.count

def vcVectorSize (v : VcVector α) : Nat := v.count * v.elementSize

def vcVectorMaxCount (v : VcVector α) : Nat := v.reservedSize / v.elementSize

/-! ## The block -/

def touch (offset size : Nat) : Vec α Unit := do
  let v ← Traced.get
  report (.touch offset size v.reservedSize)

/-- `n` cells from `first` on, wherever the block ends. -/
def cellsAt (data : List (Option α)) (first n : Nat) : List (Option α) :=
  (data.drop first ++ List.replicate n none).take n

/-- The cells from `first` on are replaced. -/
def overwrite (data : List (Option α)) (first : Nat) (cells : List (Option α)) :
    List (Option α) :=
  (data.take first ++ cells ++ data.drop (first + cells.length)).take data.length

theorem length_overwrite (data : List (Option α)) (first : Nat) (cells : List (Option α)) :
    (overwrite data first cells).length = data.length := by
  simp only [overwrite, List.length_take, List.length_append, List.length_drop]
  omega

def VcVector.write (v : VcVector α) (first : Nat) (cells : List (Option α)) : VcVector α :=
  { v with
    data := overwrite v.data first cells
    sized := by rw [length_overwrite]; exact v.sized }

@[simp] theorem write_count (v : VcVector α) (first : Nat) (cells : List (Option α)) :
    (v.write first cells).count = v.count := rfl

/-- The element at a pointer. -/
def load (offset : Nat) : Vec α α := do
  let v ← Traced.get
  touch offset v.elementSize
  match cellsAt v.data (offset / v.elementSize) 1 with
  | [some value] => return value
  | _ => stuck .unset

/-- `memmove` inside the block. -/
def memmove (dst src size : Nat) : Vec α Unit := do
  let v ← Traced.get
  touch src size
  touch dst size
  Traced.set (v.write (dst / v.elementSize)
    (cellsAt v.data (src / v.elementSize) (size / v.elementSize)))

/-- `memcpy` of elements into the block. -/
def memcpy (dst : Nat) (values : List α) : Vec α Unit := do
  let v ← Traced.get
  touch dst (v.elementSize * values.length)
  Traced.set (v.write (dst / v.elementSize) (values.map some))

def VcVector.reserve (v : VcVector α) (newCount : Nat) : VcVector α :=
  { v with
    reservedSize := newCount * v.elementSize
    data := cellsAt v.data 0 newCount
    sized := by simp [cellsAt] }

/-- `vc_vector_realloc`. -/
def vcVectorRealloc (newCount : Nat) : Vec α Unit := do
  let v ← Traced.get
  Traced.set (v.reserve newCount)

/-- `vc_vector_create`: NULL for elements of no size. -/
def vcVectorCreate (α : Type) (countElements sizeOfElement : Nat) (deleter : Bool) :
    Option (VcVector α) :=
  let countElements :=
    if countElements < MINIMUM_COUNT_OF_ELEMENTS then DEFAULT_COUNT_OF_ELEMENTS else countElements
  if small : sizeOfElement < 1 then none
  else some
    { count := 0
      elementSize := sizeOfElement
      reservedSize := countElements * sizeOfElement
      data := List.replicate countElements none
      deleter := deleter
      positive := Nat.pos_of_ne_zero fun zero => small (by omega)
      sized := by rw [List.length_replicate] }

/-! ## Modifiers -/

/-- `count * GROWTH_FACTOR`: the count becomes a `double`, so does the product, and its
fraction is cut off. -/
def growthOf (count : Nat) : Nat :=
  roundEven GROWTH_PRECISION (3 * roundEven GROWTH_PRECISION count) / 2

/-- The growth loop, for as many rounds as there is fuel. -/
def growTo (countNew : Nat) : (fuel maxCountToReserved : Nat) → Option Nat
  | 0, _ => none
  | fuel + 1, maxCountToReserved =>
      if countNew > maxCountToReserved then growTo countNew fuel (growthOf maxCountToReserved)
      else some maxCountToReserved

/-- The first half of `vc_vector_append`. A loop that does not end in `countNew` rounds does
not end (`growTo_endless`). -/
def makeRoom (countNew : Nat) : Vec α Unit := do
  let v ← Traced.get
  if vcVectorMaxCount v < countNew then
    match growTo countNew (countNew + 1) (growthOf (vcVectorMaxCount v)) with
    | none => stuck .endless
    | some maxCountToReserved =>
        report (.grow countNew maxCountToReserved)
        vcVectorRealloc maxCountToReserved

/-- `vc_vector_append`. -/
def vcVectorAppend (values : List α) : Vec α Bool := do
  let v ← Traced.get
  let countNew := values.length + vcVectorCount v
  makeRoom countNew
  memcpy (v.count * v.elementSize) values
  let v ← Traced.get
  Traced.set { v with count := countNew }
  return true

def vcVectorPushBack (value : α) : Vec α Bool := vcVectorAppend [value]

/-- The deleter is given a pointer into the block, and reads the element there. -/
def callDeleter (offset : Nat) : Vec α Unit := do
  let value ← load offset
  report (.delete value)

/-- `vector->count--` -/
def decrementCount : Vec α Unit := do
  let v ← Traced.get
  let count ← minus v.count 1
  Traced.set { v with count }

/-- `vc_vector_back`; there is none of an empty vector. -/
def vcVectorBack : Vec α Nat := do
  let v ← Traced.get
  let last ← minus v.count 1
  return last * v.elementSize

/-- `vc_vector_pop_back`; the last element is looked for only if there is a deleter for it. -/
def vcVectorPopBack : Vec α Bool := do
  let v ← Traced.get
  if v.deleter then
    let last ← vcVectorBack
    callDeleter last
  decrementCount
  return true

/-- `vc_vector_erase`: the move takes `count - index` elements, from behind the erased one. -/
def vcVectorErase (index : Nat) : Vec α Bool := do
  let v ← Traced.get
  if v.deleter then callDeleter (vcVectorAt v index)
  let left ← minus v.count index
  memmove (vcVectorAt v index) (vcVectorAt v (index + 1)) (v.elementSize * left)
  decrementCount
  return true

/-! ## Release -/

/-- The loop of `vc_vector_call_deleter`: so many elements, from an index on. -/
def callDeleters : (rounds i : Nat) → Vec α Unit
  | 0, _ => pure ()
  | rounds + 1, i => do
      let v ← Traced.get
      callDeleter (vcVectorAt v i)
      callDeleters rounds (i + 1)

/-- `vc_vector_call_deleter`: the elements from the first index up to the last, without it. -/
def vcVectorCallDeleter (firstIndex lastIndex : Nat) : Vec α Unit :=
  callDeleters (lastIndex - firstIndex) firstIndex

def vcVectorCallDeleterAll : Vec α Unit := do
  let v ← Traced.get
  vcVectorCallDeleter 0 (vcVectorCount v)

/-- `vc_vector_release`, up to where the block and the structure are given back. -/
def vcVectorRelease : Vec α Unit := do
  let v ← Traced.get
  if v.deleter then vcVectorCallDeleterAll

end Operations

/-! ## Growth -/

theorem lt_growthOf {count : Nat} (usable : 2 ≤ count) : count < growthOf count := by
  have first := roundEven_bounds GROWTH_PRECISION count
  have second := roundEven_bounds GROWTH_PRECISION (3 * roundEven GROWTH_PRECISION count)
  simp only [growthOf, GROWTH_PRECISION] at first second ⊢
  omega

/-- The loop ends, and with enough. -/
theorem growTo_spec {countNew fuel capacity : Nat} (usable : 2 ≤ capacity)
    (enough : countNew ≤ capacity + fuel) :
    ∃ reserved, growTo countNew (fuel + 1) capacity = some reserved ∧ countNew ≤ reserved ∧
      2 ≤ reserved := by
  induction fuel generalizing capacity with
  | zero => exact ⟨capacity, if_neg (by omega), enough, usable⟩
  | succ fuel ih =>
      unfold growTo
      by_cases short : countNew > capacity
      · have grows := lt_growthOf usable
        rw [if_pos short]
        apply ih
        · omega
        · omega
      · rw [if_neg short]
        exact ⟨capacity, rfl, by omega, usable⟩

/-- From a capacity below two the loop would go on for ever. -/
theorem growTo_endless {countNew capacity : Nat} (small : capacity < 2)
    (more : capacity < countNew) (fuel : Nat) : growTo countNew fuel capacity = none := by
  have stays : growthOf capacity = capacity := by
    have cases : capacity = 0 ∨ capacity = 1 := by omega
    rcases cases with rfl | rfl <;> rfl
  induction fuel with
  | zero => rfl
  | succ fuel ih =>
      unfold growTo
      rw [if_pos more, stays]
      exact ih

/-- The capacities of a vector that starts with the default. -/
example : [8, 12, 18, 27].map growthOf = [12, 18, 27, 40] := by decide

/-! ## What a vector holds -/

section Specs

variable {α : Type} {size : Nat} {deleter : Bool} {v : VcVector α} {l : List α}

theorem maxCount_eq (v : VcVector α) : vcVectorMaxCount v = v.data.length := by
  rw [vcVectorMaxCount, ← v.sized, Nat.mul_div_cancel _ v.positive]

/-- Cells and bytes: so many cells from one on are inside of the block. -/
theorem inside_iff (v : VcVector α) (first n : Nat) :
    first * v.elementSize + v.elementSize * n ≤ v.reservedSize ↔ first + n ≤ v.data.length := by
  rw [← v.sized, Nat.mul_comm v.elementSize, ← Nat.add_mul]
  exact Nat.mul_le_mul_right_iff v.positive

/-- The block begins with the elements of the list, and has room for two. -/
structure Holds (size : Nat) (deleter : Bool) (v : VcVector α) (l : List α) : Prop where
  elementSize : v.elementSize = size
  deleter : v.deleter = deleter
  count : v.count = l.length
  cells : v.data.take l.length = l.map some
  room : 2 ≤ v.data.length

/-- Nothing outside of the block is touched. -/
def Event.Inside : Event α → Prop
  | .touch offset size reserved => offset + size ≤ reserved
  | _ => True

instance (e : Event α) : Decidable e.Inside :=
  match e with
  | .touch offset size reserved => inferInstanceAs (Decidable (offset + size ≤ reserved))
  | .grow _ _ => .isTrue trivial
  | .delete _ => .isTrue trivial
  | .follow _ => .isTrue trivial

/-- What grows grows far enough. -/
def Event.Enough : Event α → Prop
  | .grow needed capacity => needed ≤ capacity
  | _ => True

structure Event.Sound (e : Event α) : Prop where
  inside : e.Inside
  enough : e.Enough

/-- What an event does with the element, which is a pointer, if it does anything with one. -/
def Event.act : Event α → Option (Act α)
  | .delete value => some (.free value)
  | .follow value => some (.use value)
  | _ => none

/-- What is done with the elements, in order. -/
def actsOf (log : List (Event α)) : List (Act α) := log.filterMap Event.act

@[simp] theorem actsOf_append (log log' : List (Event α)) :
    actsOf (log ++ log') = actsOf log ++ actsOf log' := List.filterMap_append

theorem sound_touch_iff {offset size reserved : Nat} :
    (Event.touch offset size reserved : Event α).Sound ↔ offset + size ≤ reserved :=
  ⟨fun sound => sound.inside, fun inside => ⟨inside, trivial⟩⟩

theorem sound_grow_iff {needed capacity : Nat} :
    (Event.grow needed capacity : Event α).Sound ↔ needed ≤ capacity :=
  ⟨fun sound => sound.enough, fun enough => ⟨trivial, enough⟩⟩

theorem sound_follow (value : α) : (Event.follow value).Sound := ⟨trivial, trivial⟩

theorem Holds.fits (holds : Holds size deleter v l) : l.length ≤ v.data.length := by
  have lengths := congrArg List.length holds.cells
  simp only [List.length_take, List.length_map] at lengths
  omega

/-- Each of the elements is inside of the block. -/
theorem Holds.element_inside (holds : Holds size deleter v l) {index : Nat}
    (inside : index < l.length) : vcVectorAt v index + v.elementSize ≤ v.reservedSize := by
  have fits := holds.fits
  have one := (inside_iff v index 1).2 (by omega)
  rwa [Nat.mul_one] at one

theorem holds_create {countElements : Nat} {sizeOfElement : Nat}
    (created : vcVectorCreate α countElements sizeOfElement deleter = some v) :
    Holds sizeOfElement deleter v [] := by
  simp only [vcVectorCreate] at created
  split at created
  · cases created
  · cases created
    refine ⟨rfl, rfl, rfl, rfl, ?_⟩
    rw [List.length_replicate]
    by_cases few : countElements < MINIMUM_COUNT_OF_ELEMENTS
    · rw [if_pos few]
      decide
    · rw [if_neg few]
      exact Nat.le_of_not_lt few

theorem Holds.reserve (holds : Holds size deleter v l) {newCount : Nat}
    (fits : l.length ≤ newCount) (room : 2 ≤ newCount) :
    Holds size deleter (v.reserve newCount) l where
  elementSize := holds.elementSize
  deleter := holds.deleter
  count := holds.count
  cells := by
    simp only [VcVector.reserve, cellsAt, List.drop_zero, List.take_take]
    rw [Nat.min_eq_left fits, List.take_append_of_le_length holds.fits, holds.cells]
  room := by simpa [VcVector.reserve, cellsAt] using room

theorem makeRoom_spec (holds : Holds size deleter v l) {countNew : Nat}
    (more : l.length ≤ countNew) :
    Ends (makeRoom countNew) v fun _ v' log => Holds size deleter v' l ∧
      countNew ≤ v'.data.length ∧ (∀ e ∈ log, e.Sound) ∧ actsOf log = [] := by
  apply Traced.ends_bind_of_run rfl
  show Ends (if vcVectorMaxCount v < countNew then _ else _) v _
  by_cases full : vcVectorMaxCount v < countNew
  · have usable : 2 ≤ growthOf (vcVectorMaxCount v) := by
      have grows := lt_growthOf holds.room
      have room := holds.room
      rw [maxCount_eq]
      omega
    obtain ⟨reserved, ended, enough, room⟩ :=
      growTo_spec usable (Nat.le_add_left countNew _)
    rw [if_pos full, ended]
    apply Traced.ends_bind_of_run rfl
    refine ⟨(), v.reserve reserved, [], rfl, holds.reserve (by omega) room, ?_, ?_, rfl⟩
    · simpa [VcVector.reserve, cellsAt] using enough
    · simpa [sound_grow_iff] using enough
  · rw [if_neg full]
    refine Traced.ends_pure ⟨holds, ?_, by simp, rfl⟩
    rw [← maxCount_eq]
    omega

/-- Elements written behind the list belong to it once they are counted. -/
theorem Holds.append (holds : Holds size deleter v l) {values : List α}
    (fits : l.length + values.length ≤ v.data.length) :
    Holds size deleter
      { v.write l.length (values.map some) with count := values.length + l.length }
      (l ++ values) where
  elementSize := holds.elementSize
  deleter := holds.deleter
  count := by
    rw [List.length_append]
    exact Nat.add_comm _ _
  cells := by
    have whole : (l.map some ++ values.map some).length = (l ++ values).length := by simp
    have inside : (l ++ values).length ≤ v.data.length := by simpa using fits
    simp only [VcVector.write, overwrite, List.take_take]
    rw [Nat.min_eq_left inside, holds.cells, ← whole, List.take_left, List.map_append]
  room := by
    simp only [VcVector.write, length_overwrite]
    exact holds.room

/-- `vc_vector_append`, over the list. -/
theorem append_spec (holds : Holds size deleter v l) (values : List α) :
    Ends (vcVectorAppend values) v fun ok v' log => ok = true ∧
      Holds size deleter v' (Source.vcVectorAppend l values) ∧ (∀ e ∈ log, e.Sound) ∧
        actsOf log = [] := by
  apply Traced.ends_bind_of_run rfl
  simp only [vcVectorCount, holds.count, holds.elementSize]
  apply (makeRoom_spec holds (Nat.le_add_left l.length values.length)).bind
  rintro ⟨⟩ v' log ⟨holds', enough, sound, quiet⟩
  apply Traced.ends_bind_of_run rfl
  refine ⟨true, _, _, rfl, rfl, ?_, ?_, ?_⟩
  · have first : l.length * size / v'.elementSize = l.length := by
      rw [← holds'.elementSize, Nat.mul_div_cancel _ v'.positive]
    rw [first]
    exact holds'.append (by omega)
  · have copied : l.length * size + v'.elementSize * values.length ≤ v'.reservedSize := by
      rw [← holds'.elementSize, inside_iff]
      omega
    simpa [sound_touch_iff, or_imp, forall_and] using ⟨sound, copied⟩
  · simp only [actsOf_append, quiet]
    rfl

theorem decrementCount_run (counted : 0 < v.count) :
    decrementCount.run v = .ok ((), { v with count := v.count - 1 }, []) := by
  simp [decrementCount, minus, Nat.succ_le_of_lt counted]

/-- `vc_vector_pop_back` of elements that have no deleter. -/
theorem popBack_spec (holds : Holds size false v l) (nonempty : l ≠ []) :
    Ends vcVectorPopBack v fun ok v' log => ok = true ∧
      Holds size false v' (Source.vcVectorPopBack l) ∧ log = [] := by
  have counted : 0 < v.count := holds.count ▸ List.length_pos_of_ne_nil nonempty
  apply Traced.ends_bind_of_run rfl
  simp only [holds.deleter, Bool.false_eq_true, if_false]
  apply Traced.ends_bind_of_run (decrementCount_run counted)
  refine Traced.ends_pure ⟨rfl, ⟨holds.elementSize, holds.deleter, ?_, ?_, holds.room⟩, rfl⟩
  · simp [Source.vcVectorPopBack, holds.count]
  · have shorter := congrArg (List.take (l.length - 1)) holds.cells
    rw [List.take_take, Nat.min_eq_left (Nat.sub_le _ _)] at shorter
    simp [Source.vcVectorPopBack, List.dropLast_eq_take, shorter, List.map_take]

/-! ## Erasing -/

/-- What an erasure touches: the element for the deleter, then both ends of the move. -/
def erasureLog (v : VcVector α) (index : Nat) (value : α) : List (Event α) :=
  (if v.deleter then [.touch (vcVectorAt v index) v.elementSize v.reservedSize, .delete value]
    else []) ++
    [.touch (vcVectorAt v (index + 1)) (v.elementSize * (v.count - index)) v.reservedSize,
      .touch (vcVectorAt v index) (v.elementSize * (v.count - index)) v.reservedSize]

theorem load_run (holds : Holds size deleter v l) {index : Nat} (inside : index < l.length) :
    (load (vcVectorAt v index)).run v = .ok (l[index], v,
      [.touch (vcVectorAt v index) v.elementSize v.reservedSize]) := by
  have here : cellsAt v.data (vcVectorAt v index / v.elementSize) 1 = [some l[index]] := by
    have cell : v.data[index]? = some (some l[index]) := by
      have same := congrArg (fun cells => cells[index]?) holds.cells
      simpa [List.getElem?_take, inside] using same
    obtain ⟨bound, cell⟩ := List.getElem?_eq_some_iff.1 cell
    rw [vcVectorAt, Nat.mul_div_cancel _ v.positive, cellsAt, List.drop_eq_getElem_cons bound, cell]
    rfl
  simp [load, touch, here]

theorem memmove_run (v : VcVector α) (dst src size : Nat) :
    (memmove dst src size).run v = .ok ((),
      v.write (dst / v.elementSize) (cellsAt v.data (src / v.elementSize) (size / v.elementSize)),
      [.touch src size v.reservedSize, .touch dst size v.reservedSize]) := by
  simp [memmove, touch]

theorem erase_run (holds : Holds size deleter v l) {index : Nat} (inside : index < l.length) :
    (vcVectorErase index).run v = .ok (true,
      { v.write index (cellsAt v.data (index + 1) (v.count - index)) with count := v.count - 1 },
      erasureLog v index l[index]) := by
  have counted : 0 < v.count := by
    rw [holds.count]
    omega
  have less : index ≤ v.count := by
    rw [holds.count]
    omega
  have moved : (memmove (vcVectorAt v index) (vcVectorAt v (index + 1))
      (v.elementSize * (v.count - index))).run v = .ok ((),
        v.write index (cellsAt v.data (index + 1) (v.count - index)),
        [.touch (vcVectorAt v (index + 1)) (v.elementSize * (v.count - index)) v.reservedSize,
          .touch (vcVectorAt v index) (v.elementSize * (v.count - index)) v.reservedSize]) := by
    rw [memmove_run]
    simp only [vcVectorAt, Nat.mul_div_cancel _ v.positive, Nat.mul_div_cancel_left _ v.positive]
  have last := decrementCount_run
    (v := v.write index (cellsAt v.data (index + 1) (v.count - index))) counted
  cases present : v.deleter <;>
    simp [vcVectorErase, callDeleter, load_run holds inside, minus, less, moved, last, erasureLog,
      present]

/-- The elements behind the erased one move up by one. -/
theorem Holds.erase (holds : Holds size deleter v l) {index : Nat} (inside : index < l.length) :
    Holds size deleter
      { v.write index (cellsAt v.data (index + 1) (v.count - index)) with count := v.count - 1 }
      (l.eraseIdx index) where
  elementSize := holds.elementSize
  deleter := holds.deleter
  count := by
    rw [List.length_eraseIdx_of_lt inside]
    exact congrArg (· - 1) holds.count
  cells := by
    have fits := holds.fits
    have front : v.data.take index = (l.take index).map some := by
      have shorter := congrArg (List.take index) holds.cells
      rwa [List.take_take, Nat.min_eq_left (Nat.le_of_lt inside), ← List.map_take] at shorter
    have behind : (v.data.drop (index + 1)).take (l.length - 1 - index) =
        (l.drop (index + 1)).map some := by
      rw [List.map_drop, ← holds.cells, List.drop_take]
      congr 1
      omega
    have moved : (cellsAt v.data (index + 1) (l.length - index)).take (l.length - 1 - index) =
        (l.drop (index + 1)).map some := by
      rw [cellsAt, List.take_take, Nat.min_eq_left (by omega), List.take_append_of_le_length,
        behind]
      rw [List.length_drop]
      omega
    have lengths : (v.data.take index).length = index := by
      rw [List.length_take]
      omega
    rw [List.length_eraseIdx_of_lt inside, holds.count]
    simp only [VcVector.write, overwrite, List.take_take]
    rw [Nat.min_eq_left (by omega), List.append_assoc, List.take_append, lengths, List.take_take,
      Nat.min_eq_right (by omega), List.take_append_of_le_length, moved, front,
      List.eraseIdx_eq_take_drop_succ, List.map_append]
    simp only [cellsAt, List.length_take, List.length_append, List.length_drop,
      List.length_replicate]
    omega
  room := by
    simp only [VcVector.write, length_overwrite]
    exact holds.room

/-- The move reads one element more than there are. -/
theorem erasureLog_inside_iff (holds : Holds size deleter v l) {index : Nat}
    (inside : index < l.length) :
    (∀ e ∈ erasureLog v index l[index], e.Inside) ↔ v.count < vcVectorMaxCount v := by
  have fits := holds.fits
  have counted := holds.count
  have read := holds.element_inside inside
  have source : vcVectorAt v (index + 1) + v.elementSize * (v.count - index) ≤ v.reservedSize ↔
      v.count < vcVectorMaxCount v := by
    rw [maxCount_eq, vcVectorAt, inside_iff]
    omega
  have target : vcVectorAt v index + v.elementSize * (v.count - index) ≤ v.reservedSize :=
    (inside_iff v index _).2 (by omega)
  rw [← source]
  cases present : v.deleter <;> simp [erasureLog, present, Event.Inside, read, target]

/-- `vc_vector_erase`, over the list. -/
theorem erase_spec (holds : Holds size deleter v l) {index : Nat} (inside : index < l.length) :
    Ends (vcVectorErase index) v fun ok v' log => ok = true ∧
      Holds size deleter v' (Source.vcVectorErase l index) ∧ log = erasureLog v index l[index] :=
  ⟨true, _, _, erase_run holds inside, rfl, holds.erase inside, rfl⟩

theorem actsOf_erasureLog (deletes : v.deleter = true) (index : Nat) (value : α) :
    actsOf (erasureLog v index value) = [.free value] := by
  rw [erasureLog, if_pos deletes]
  rfl

/-! ## Releasing -/

/-- Element after element is given to the deleter. -/
theorem callDeleters_spec (holds : Holds size deleter v l) {rounds i : Nat}
    (behind : i + rounds = l.length) :
    Ends (callDeleters rounds i) v fun _ v' log => v' = v ∧
      actsOf log = (l.drop i).map .free ∧ ∀ e ∈ log, e.Sound := by
  induction rounds generalizing i with
  | zero =>
      have none : l.drop i = [] := List.drop_eq_nil_of_le (by omega)
      rw [none]
      exact Traced.ends_pure ⟨rfl, rfl, by simp⟩
  | succ rounds ih =>
      have inside : i < l.length := by omega
      have deleted : (callDeleter (vcVectorAt v i)).run v = .ok ((), v,
          [.touch (vcVectorAt v i) v.elementSize v.reservedSize, .delete l[i]]) := by
        simp [callDeleter, load_run holds inside]
      have given : (Event.delete l[i]).Sound := ⟨trivial, trivial⟩
      apply Traced.ends_bind_of_run rfl
      apply Traced.ends_bind_of_run deleted
      apply (ih (by omega)).mono
      rintro _ v' log ⟨rfl, acts, sound⟩
      refine ⟨rfl, ?_, ?_⟩
      · rw [List.drop_eq_getElem_cons inside, List.map_cons, ← acts]
        rfl
      · simpa [sound_touch_iff, given, holds.element_inside inside] using sound

/-- `vc_vector_release`, over the list. -/
theorem release_spec (holds : Holds size true v l) :
    Ends vcVectorRelease v fun _ v' log => v' = v ∧ actsOf log = l.map .free ∧
      ∀ e ∈ log, e.Sound := by
  apply Traced.ends_bind_of_run rfl
  rw [if_pos holds.deleter]
  apply Traced.ends_bind_of_run rfl
  show Ends (callDeleters (v.count - 0) 0) v _
  have all : 0 + (v.count - 0) = l.length := by
    rw [holds.count]
    omega
  exact callDeleters_spec holds all

end Specs

end Feedserver.Buffer
