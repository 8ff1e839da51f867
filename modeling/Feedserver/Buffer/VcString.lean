/-
# Buffer.VcString — vc_string.c over a vector with its block

The operations of `Source.VcString` again, now as the calls of `Buffer.VcVector` that the
source makes: the terminator is popped, the content changed and the terminator pushed, and
any of the appends may have to grow the block.

* `nAppend_spec`, `nRemove_spec`: each operation does to the elements what the operation of
  `Source` does.
* `builder_faithful`: so a builder holds the string that its operations make, after any
  sequence of them, and never goes below 0, loops on or leaves its block on the way.
-/
import Feedserver.Buffer.VcVector

namespace Feedserver.Buffer

open Feedserver.Theory
open Traced (Ends Admitted sequence)

set_option autoImplicit false

def VC_STRING_MIN_SIZE : Nat := 512

/-! ## The operations -/

def vcStringAddNullTerminator : Vec UInt8 Bool := vcVectorAppend [0]

/-- `vc_string_create`, and what is done with the builder then. -/
def vcStringCreate {β : Type} (rest : Vec UInt8 β) :
    Except Stuck (β × VcVector UInt8 × List (Event UInt8)) :=
  match vcVectorCreate UInt8 VC_STRING_MIN_SIZE 1 false with
  | none => .error .nullPointer
  | some v => (vcStringAddNullTerminator >>= fun _ => rest).run v

def vcStringNAppend (str : Bytes) (n : Nat) : Vec UInt8 Bool := do
  let _ ← vcVectorPopBack
  let _ ← vcVectorAppend (str.take n)
  vcStringAddNullTerminator

/-- `vc_string_append`, which is declared to return something and does not. -/
def vcStringAppend (str : CString) : Vec UInt8 Unit := do
  let _ ← vcStringNAppend str.bytes str.bytes.length

/-- The loop of `vc_string_n_remove`. -/
def popBacks : Nat → Vec UInt8 Unit
  | 0 => return ()
  | n + 1 => do
      let _ ← vcVectorPopBack
      popBacks n

def vcStringNRemove (n : Nat) : Vec UInt8 Bool :=
  if n ≤ 0 then return false
  else do
    popBacks n
    let _ ← vcVectorPopBack
    vcStringAddNullTerminator

def vcStringLength : Vec UInt8 Nat := do
  let v ← Traced.get
  minus (vcVectorSize v) 1

/-! ## Each operation, over the elements -/

section Specs

variable {v : VcVector UInt8} {l : List UInt8}

theorem addNullTerminator_spec (holds : Holds 1 false v l) :
    Ends vcStringAddNullTerminator v fun _ v' log =>
      Holds 1 false v' (Source.vcStringAddNullTerminator l) ∧ ∀ e ∈ log, e.Sound :=
  (append_spec holds [0]).mono fun _ _ _ ⟨_, holds', sound, _⟩ => ⟨holds', sound⟩

theorem nAppend_spec (holds : Holds 1 false v l) (nonempty : l ≠ []) (str : Bytes) (n : Nat) :
    Ends (vcStringNAppend str n) v fun _ v' log =>
      Holds 1 false v' (Source.vcStringNAppend l str n) ∧ ∀ e ∈ log, e.Sound := by
  apply (popBack_spec holds nonempty).bind
  rintro _ v₁ _ ⟨-, popped, rfl⟩
  apply (append_spec popped (str.take n)).bind
  rintro _ v₂ log ⟨-, appended, sound, -⟩
  apply (addNullTerminator_spec appended).mono
  rintro _ v₃ log' ⟨terminated, sound'⟩
  refine ⟨terminated, ?_⟩
  rw [List.nil_append]
  exact List.forall_mem_append.2 ⟨sound, sound'⟩

/-- So many elements can be popped as there are. -/
theorem popBacks_spec (holds : Holds 1 false v l) {n : Nat} (enough : n ≤ l.length) :
    Ends (popBacks n) v fun _ v' log =>
      Holds 1 false v' (Nat.repeat Source.vcVectorPopBack n l) ∧ log = [] := by
  induction n generalizing v l with
  | zero => exact Traced.ends_pure ⟨holds, rfl⟩
  | succ n ih =>
      have nonempty : l ≠ [] := by
        rintro rfl
        simp at enough
      apply (popBack_spec holds nonempty).bind
      rintro _ v' _ ⟨-, popped, rfl⟩
      have left : n ≤ (Source.vcVectorPopBack l).length := by
        simp only [Source.vcVectorPopBack, List.length_dropLast]
        omega
      apply (ih popped left).mono
      rintro _ v'' log ⟨holds', rfl⟩
      refine ⟨?_, rfl⟩
      have same : Nat.repeat Source.vcVectorPopBack (n + 1) l =
          Nat.repeat Source.vcVectorPopBack n (Source.vcVectorPopBack l) := by
        simp only [Source.repeat_popBack, Source.vcVectorPopBack, List.dropLast_eq_take,
          List.take_take, List.length_take]
        congr 1
        omega
      rw [same]
      exact holds'

/-- Of the elements, one more than asked for has to be there: the terminator. -/
theorem nRemove_spec (holds : Holds 1 false v l) {n : Nat} (enough : n < l.length) :
    Ends (vcStringNRemove n) v fun _ v' log =>
      Holds 1 false v' (Source.vcStringNRemove l n) ∧ ∀ e ∈ log, e.Sound := by
  unfold vcStringNRemove Source.vcStringNRemove
  by_cases nothing : n ≤ 0
  · rw [if_pos nothing, if_pos nothing]
    exact Traced.ends_pure ⟨holds, by simp⟩
  · rw [if_neg nothing, if_neg nothing]
    apply (popBacks_spec holds (Nat.le_of_lt enough)).bind
    rintro _ v₁ _ ⟨popped, rfl⟩
    have nonempty : Nat.repeat Source.vcVectorPopBack n l ≠ [] := by
      apply List.ne_nil_of_length_pos
      rw [Source.repeat_popBack, List.length_take]
      omega
    apply (popBack_spec popped nonempty).bind
    rintro _ v₂ _ ⟨-, cut, rfl⟩
    exact addNullTerminator_spec cut

end Specs

/-! ## Sequences of operations -/

inductive StringOp where
  | append (str : CString)
  | nAppend (str : Bytes) (n : Nat)
  | nRemove (n : Nat)

namespace StringOp

def perform : StringOp → Vec UInt8 Unit
  | .append str => vcStringAppend str
  | .nAppend str n => do let _ ← vcStringNAppend str n
  | .nRemove n => do let _ ← vcStringNRemove n

/-- The same operation on a list of elements. -/
def onElements (l : List UInt8) : StringOp → List UInt8
  | .append str => Source.vcStringAppend l str
  | .nAppend str n => Source.vcStringNAppend l str n
  | .nRemove n => Source.vcStringNRemove l n

/-- What the operation makes of a string. -/
def edit (s : Bytes) : StringOp → Bytes
  | .append str => s ++ str.bytes
  | .nAppend str n => s ++ str.take n
  | .nRemove n => s.take (s.length - n)

/-- No more characters are copied than are there, and no more removed than are left. -/
def Allowed (s : Bytes) : StringOp → Prop
  | .append _ => True
  | .nAppend str n => n ≤ str.length
  | .nRemove n => n ≤ s.length

/-- Over the elements the operation does to the string what it says. -/
theorem builds_onElements {op : StringOp} {l : List UInt8} {s : Bytes}
    (builds : Source.Builds l s) (allowed : op.Allowed s) :
    Source.Builds (op.onElements l) (op.edit s) := by
  cases op with
  | append str => exact builds.append str
  | nAppend str n => exact builds.nAppend str n
  | nRemove n =>
      have removable : n ≤ s.length := allowed
      have removed : (s.drop (s.length - n)).length = n := by
        rw [List.length_drop]
        omega
      rw [← List.take_append_drop (s.length - n) s] at builds
      have cut := builds.nRemove
      rwa [removed] at cut

/-- On the block it does what it does over the elements. -/
theorem perform_spec {op : StringOp} {v : VcVector UInt8} {l : List UInt8} {s : Bytes}
    (holds : Holds 1 false v l) (builds : Source.Builds l s) (allowed : op.Allowed s) :
    Ends op.perform v fun _ v' log =>
      Holds 1 false v' (op.onElements l) ∧ ∀ e ∈ log, e.Sound := by
  have whole : l.length = s.length + 1 := by
    rw [builds, List.length_append, List.length_singleton]
  have nonempty : l ≠ [] := List.ne_nil_of_length_eq_add_one whole
  have discarded {m : Vec UInt8 Bool} {l' : List UInt8}
      (ends : Ends m v fun _ v' log => Holds 1 false v' l' ∧ ∀ e ∈ log, e.Sound) :
      Ends (do let _ ← m : Vec UInt8 Unit) v fun _ v' log =>
        Holds 1 false v' l' ∧ ∀ e ∈ log, e.Sound :=
    ends.bind fun _ v' log ⟨holds', sound⟩ => Traced.ends_pure ⟨holds', by simpa using sound⟩
  cases op with
  | append str => exact discarded (nAppend_spec holds nonempty _ _)
  | nAppend str n => exact discarded (nAppend_spec holds nonempty str n)
  | nRemove n =>
      have removable : n ≤ s.length := allowed
      exact discarded (nRemove_spec holds (by omega))

end StringOp

/-- The builder is the string: its characters and one terminator, in a block that is large
enough. -/
structure IsString (v : VcVector UInt8) (s : Bytes) : Prop where
  content : v.data.take v.count = (s ++ [0]).map some
  length : vcStringLength.run v = .ok (s.length, v, [])
  fits : vcVectorCount v ≤ vcVectorMaxCount v

theorem isString_of_holds {v : VcVector UInt8} {s : Bytes} (holds : Holds 1 false v (s ++ [0])) :
    IsString v s where
  content := by
    rw [holds.count]
    exact holds.cells
  length := by
    simp [vcStringLength, minus, vcVectorSize, holds.count, holds.elementSize]
  fits := by
    rw [maxCount_eq, vcVectorCount, holds.count]
    exact holds.fits

/-- One operation after another, from a builder of any string. -/
theorem sequence_spec {ops : List StringOp} {v : VcVector UInt8} {s : Bytes}
    (holds : Holds 1 false v (s ++ [0]))
    (admitted : Admitted (fun s op => op.Allowed s) StringOp.edit s ops) :
    Ends (sequence StringOp.perform ops) v fun _ v' log =>
      Holds 1 false v' (ops.foldl StringOp.edit s ++ [0]) ∧ ∀ e ∈ log, e.Sound := by
  have one (v : VcVector UInt8) (s : Bytes) (op : StringOp) (holds : Holds 1 false v (s ++ [0]))
      (allowed : op.Allowed s) : Ends op.perform v fun _ v' log =>
        Holds 1 false v' (op.edit s ++ [0]) ∧ ∀ e ∈ log, e.Sound := by
    have builds : Source.Builds (s ++ [0]) s := rfl
    have edited : op.onElements (s ++ [0]) = op.edit s ++ [0] :=
      StringOp.builds_onElements builds allowed
    rw [← edited]
    exact StringOp.perform_spec holds builds allowed
  exact Traced.ends_sequence one holds admitted

/-- **A builder is a faithful string.** Any sequence of operations, as long as each removes no
more than there is, runs to its end: no count goes below 0 and every growth loop ends, with
a capacity that is enough. Nothing outside of the block is touched, and what the builder
holds is the string and one terminator. -/
theorem builder_faithful {ops : List StringOp}
    (admitted : Admitted (fun s op => op.Allowed s) StringOp.edit [] ops) :
    ∃ v log, vcStringCreate (sequence StringOp.perform ops) = .ok ((), v, log) ∧
      IsString v (ops.foldl StringOp.edit []) ∧ ∀ e ∈ log, e.Sound := by
  unfold vcStringCreate
  cases created : vcVectorCreate UInt8 VC_STRING_MIN_SIZE 1 false with
  | none => cases created
  | some v₀ =>
      have whole : Ends (vcStringAddNullTerminator >>= fun _ => sequence StringOp.perform ops) v₀
          fun _ v log => Holds 1 false v (ops.foldl StringOp.edit [] ++ [0]) ∧
            ∀ e ∈ log, e.Sound := by
        apply (addNullTerminator_spec (holds_create created)).bind
        rintro _ v₁ log ⟨holds, sound⟩
        apply (sequence_spec holds admitted).mono
        rintro _ v₂ log' ⟨holds', sound'⟩
        exact ⟨holds', List.forall_mem_append.2 ⟨sound, sound'⟩⟩
      obtain ⟨⟨⟩, v, log, ran, holds, sound⟩ := whole
      exact ⟨v, log, ran, isString_of_holds holds, sound⟩

/-- More than the first block holds, most of it removed again, and one character more. -/
def growingOps : List StringOp :=
  [.nAppend (List.replicate 600 0x61) 600, .nRemove 599, .append (lit "b")]

theorem builder_faithful_growing :
    (∃ v log, vcStringCreate (sequence StringOp.perform growingOps) = .ok ((), v, log) ∧
      IsString v (ascii "ab") ∧ ∀ e ∈ log, e.Sound) ∧
    ((vcStringCreate (sequence StringOp.perform growingOps)).toOption.any fun result =>
      result.2.2.contains (.grow 600 768)) = true := by
  have meaning : growingOps.foldl StringOp.edit [] = ascii "ab" := by decide +kernel
  refine ⟨?_, by decide +kernel⟩
  rw [← meaning]
  apply builder_faithful
  refine ⟨?_, ?_, trivial, trivial⟩
  · show 600 ≤ (List.replicate 600 (0x61 : UInt8)).length
    rw [List.length_replicate]
  · show 599 ≤ (StringOp.edit [] _).length
    decide +kernel

end Feedserver.Buffer
