/-
# Source.VcString — vc_string.c over the contents of a vector

A `vc_vector` is taken here as its elements `data[0 .. count)`: the buffer's capacity and
its growth do not show at this level, nor what `vc_vector_erase` reads behind a full buffer
(`Buffer` has both). A string builder keeps its terminator as the last
element, so every operation pops it, changes the content and pushes it again, as in the
source; `Builds v s` says that `v` is the string `s` and one terminator, and each
operation has one lemma in those terms.

`Fault` is what the C standard leaves undefined and the source does not exclude. A model
function that reaches such a step returns the fault instead of going on.
-/
import Feedserver.Theory.Bytes

namespace Feedserver.Source

open Feedserver.Theory

set_option autoImplicit false

inductive Fault where
  /-- a pointer that is NULL is followed -/
  | nullPointer
  /-- the string pointer of a JSON value is read and the value is not a string -/
  | wrongTag
  /-- an element or a character past the end is addressed -/
  | outOfBounds
  /-- `free` of something that `malloc` did not return -/
  | badFree
deriving DecidableEq

/-- The pointer, or the fault of following it. -/
def deref {α : Type} : Option α → Except Fault α
  | some value => .ok value
  | none => .error .nullPointer

/-! ## vc_vector.c -/

/-- `data[0 .. count)` of a vector. -/
abbrev VcVector (α : Type) := List α

section VcVector

variable {α : Type}

def vcVectorAppend (v : VcVector α) (values : List α) : VcVector α := v ++ values

def vcVectorPushBack (v : VcVector α) (value : α) : VcVector α := vcVectorAppend v [value]

def vcVectorPopBack (v : VcVector α) : VcVector α := v.dropLast

/-- What is left, whether or not the source's move reads behind the buffer for it. -/
def vcVectorErase (v : VcVector α) (index : Nat) : VcVector α := v.eraseIdx index

def vcVectorReplace (v : VcVector α) (index : Nat) (value : α) : Except Fault (VcVector α) :=
  if index < v.length then .ok (v.set index value) else .error .outOfBounds

end VcVector

/-- `vc_vector_size` of a vector of bytes. -/
def vcVectorSize (v : VcVector UInt8) : Nat := v.length

/-! ## vc_string.c -/

def vcStringAddNullTerminator (v : VcVector UInt8) : VcVector UInt8 := vcVectorAppend v [0]

def vcStringCreate : VcVector UInt8 := vcStringAddNullTerminator []

def vcStringNAppend (v : VcVector UInt8) (str : Bytes) (n : Nat) : VcVector UInt8 :=
  vcStringAddNullTerminator (vcVectorAppend (vcVectorPopBack v) (str.take n))

def vcStringAppend (v : VcVector UInt8) (str : CString) : VcVector UInt8 :=
  vcStringNAppend v str.bytes str.bytes.length

/-- `vc_string_n_remove`: one element goes for each of the `n`, and one more, the
terminator, which is pushed again. -/
def vcStringNRemove (v : VcVector UInt8) (n : Nat) : VcVector UInt8 :=
  if n ≤ 0 then v
  else vcStringAddNullTerminator (vcVectorPopBack (Nat.repeat vcVectorPopBack n v))

/-- `vc_string_begin`, read as the C string it is handed on as. -/
def vcStringBegin (v : VcVector UInt8) : CString := cstr v

def vcStringLength (v : VcVector UInt8) : Nat := vcVectorSize v - 1

/-- What `vc_string_json_deparse_char` appends for one character. -/
def jsonDeparseByte (b : UInt8) : Bytes :=
  if b = 0x08 then ascii "\\b"
  else if b = 0x0C then ascii "\\f"
  else if b = 0x0A then ascii "\\n"
  else if b = 0x0D then ascii "\\r"
  else if b = 0x09 then ascii "\\t"
  else if b = 0x22 then ascii "\\\""
  else if b = 0x5C then ascii "\\\\"
  else if b = 0x2F then ascii "\\/"
  else [b]

/-- `vc_string_json_deparse_char`: NULL for an empty string. -/
def vcStringJsonDeparseChar (s : CString) : Option (VcVector UInt8) :=
  if s.bytes = [] then none
  else some (vcStringAddNullTerminator
    (s.bytes.foldl (fun v b => vcVectorAppend v (jsonDeparseByte b)) []))

/-! ## A builder is a string and its terminator -/

/-- The vector holds the string `s`, then one terminator. -/
def Builds (v : VcVector UInt8) (s : Bytes) : Prop := v = s ++ [0]

theorem builds_create : Builds vcStringCreate [] := rfl

theorem Builds.nAppend {v : VcVector UInt8} {s : Bytes} (builds : Builds v s) (str : Bytes)
    (n : Nat) : Builds (vcStringNAppend v str n) (s ++ str.take n) := by
  rw [Builds] at builds ⊢
  simp [vcStringNAppend, vcStringAddNullTerminator, vcVectorAppend, vcVectorPopBack, builds]

theorem Builds.append {v : VcVector UInt8} {s : Bytes} (builds : Builds v s) (str : CString) :
    Builds (vcStringAppend v str) (s ++ str.bytes) := by
  have appended := builds.nAppend str.bytes str.bytes.length
  rwa [List.take_length] at appended

theorem Builds.length {v : VcVector UInt8} {s : Bytes} (builds : Builds v s) :
    vcStringLength v = s.length := by
  rw [Builds] at builds
  simp [vcStringLength, vcVectorSize, builds]

theorem repeat_popBack (n : Nat) (v : VcVector UInt8) :
    Nat.repeat vcVectorPopBack n v = v.take (v.length - n) := by
  induction n with
  | zero => simp [Nat.repeat]
  | succ n ih =>
      rw [Nat.repeat, ih, vcVectorPopBack, List.dropLast_eq_take, List.take_take]
      congr 1
      simp only [List.length_take]
      omega

theorem Builds.nRemove {v : VcVector UInt8} {s t : Bytes} (builds : Builds v (s ++ t)) :
    Builds (vcStringNRemove v t.length) s := by
  rw [Builds] at builds
  unfold vcStringNRemove
  split
  · have : t = [] := List.eq_nil_of_length_eq_zero (by omega)
    simpa [Builds, this] using builds
  · -- `t` and the terminator are popped, and the terminator is pushed back
    have left : (v.take (v.length - t.length)).length - 1 = s.length := by
      simp [builds]; omega
    rw [Builds, repeat_popBack, vcVectorPopBack, List.dropLast_eq_take, left, List.take_take, builds]
    have short : min s.length ((s ++ t ++ [0]).length - t.length) = s.length := by
      simp; omega
    rw [short, List.append_assoc, List.take_left]
    rfl

theorem Builds.begin_ {v : VcVector UInt8} {s : Bytes} (builds : Builds v s)
    (free : (0 : UInt8) ∉ s) : (vcStringBegin v).bytes = s := by
  rw [Builds] at builds
  have := cstr_append_nul ⟨s, free⟩ []
  rw [vcStringBegin, builds, this]

theorem foldl_append_eq_flatMap (f : UInt8 → Bytes) (s acc : Bytes) :
    s.foldl (fun v b => vcVectorAppend v (f b)) acc = acc ++ s.flatMap f := by
  induction s generalizing acc with
  | nil => simp
  | cons b bs ih =>
      rw [List.foldl_cons, ih, vcVectorAppend, List.flatMap_cons, List.append_assoc]

/-- The escaped form of a text, byte by byte. -/
def deparse (s : Bytes) : Bytes := s.flatMap jsonDeparseByte

theorem jsonDeparseByte_nulFree {b : UInt8} (nonzero : b ≠ 0) : (0 : UInt8) ∉ jsonDeparseByte b := by
  unfold jsonDeparseByte
  repeat' split
  all_goals first
    | decide
    | simpa using nonzero.symm

theorem deparse_nulFree (s : CString) : (0 : UInt8) ∉ deparse s.bytes := by
  intro member
  obtain ⟨b, inside, member⟩ := List.mem_flatMap.1 member
  exact jsonDeparseByte_nulFree (fun zero => s.nulFree (zero ▸ inside)) member

theorem vcStringJsonDeparseChar_eq (s : CString) :
    vcStringJsonDeparseChar s = if s.bytes = [] then none else some (deparse s.bytes ++ [0]) := by
  unfold vcStringJsonDeparseChar
  rw [foldl_append_eq_flatMap]
  rfl

end Feedserver.Source
