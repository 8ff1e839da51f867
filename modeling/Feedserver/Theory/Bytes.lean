/-
# Theory.Bytes — bytes, C strings and the C-locale character classes

* `CString` — the bytes before a terminator. The absence of a NUL byte is a field, so
  `strcmp` is equality (`CString.ext`) and every `strdup`, key slice and append that goes
  through `strlen` keeps exactly these bytes.
* `cstr` — what a `char *` into a buffer shows of it: everything up to the first NUL.
  Reading a length-counted string through its pointer is `cstr`, and it loses nothing
  when there is no NUL to stop at (`cstr_bytes_of_nulFree`).
* `isalnum`, `isprint`, `isspace` — the C locale, where no byte above 0x7E is in a class.
* `strncmpEq` — `strncmp(a, b, n) == 0`; at the length of `a` it is the prefix test
  (`strncmpEq_length_iff`).
* The order on bytes is the unsigned one, so `<` on `Bytes` is `memcmp` with the shorter
  string first.
-/
import Mathlib.Data.List.Lex
import Mathlib.Data.List.TakeWhile

namespace Feedserver.Theory

set_option autoImplicit false

abbrev Bytes := List UInt8

/-- The bytes of a source literal. -/
def ascii (literal : String) : Bytes := literal.toUTF8.data.toList

instance byteOrder : LinearOrder UInt8 where
  le_refl := UInt8.le_refl
  le_trans _ _ _ := UInt8.le_trans
  le_antisymm _ _ := UInt8.le_antisymm
  le_total := UInt8.le_total
  lt_iff_le_not_ge a b := by
    simp only [UInt8.lt_iff_toNat_lt, UInt8.le_iff_toNat_le]; omega
  toDecidableLE := inferInstance
  toDecidableLT := inferInstance

/-! ## C strings -/

/-- A C string: the bytes before its terminator. -/
@[ext] structure CString where
  bytes : Bytes
  nulFree : (0 : UInt8) ∉ bytes
deriving DecidableEq

theorem nul_not_mem_takeWhile (buffer : Bytes) :
    (0 : UInt8) ∉ buffer.takeWhile (· ≠ 0) := by
  intro member
  have nonzero := List.mem_takeWhile_imp member
  simp at nonzero

/-- The C string at the start of a buffer. -/
def cstr (buffer : Bytes) : CString :=
  ⟨buffer.takeWhile (· ≠ 0), nul_not_mem_takeWhile buffer⟩

/-- The C string of a source literal. -/
def lit (literal : String) : CString := cstr (ascii literal)

theorem takeWhile_nul_of_not_mem {buffer : Bytes} (free : (0 : UInt8) ∉ buffer) :
    buffer.takeWhile (· ≠ 0) = buffer := by
  rw [List.takeWhile_eq_self_iff]
  intro b member
  have : b ≠ 0 := fun zero => free (zero ▸ member)
  simpa using this

theorem cstr_bytes_of_nulFree {buffer : Bytes} (free : (0 : UInt8) ∉ buffer) :
    (cstr buffer).bytes = buffer := takeWhile_nul_of_not_mem free

@[simp] theorem cstr_of_bytes (s : CString) : cstr s.bytes = s :=
  CString.ext (cstr_bytes_of_nulFree s.nulFree)

/-- Whatever follows a terminator is not part of the C string. -/
theorem cstr_append_nul (s : CString) (rest : Bytes) : cstr (s.bytes ++ 0 :: rest) = s := by
  apply CString.ext
  have free : ∀ b ∈ s.bytes, decide (b ≠ 0) = true := by
    intro b member
    have : b ≠ 0 := fun zero => s.nulFree (zero ▸ member)
    simpa using this
  simp only [cstr]
  rw [List.takeWhile_append_of_pos free]
  simp

theorem cstr_length_le (buffer : Bytes) : (cstr buffer).bytes.length ≤ buffer.length :=
  (List.takeWhile_sublist _).length_le

theorem bytes_injective : Function.Injective CString.bytes := fun _ _ same => CString.ext same

/-! ## `strncmp` -/

/-- `strncmp(a, b, n) == 0`; a list that has ended stands for its terminator. -/
def strncmpEq : Bytes → Bytes → Nat → Bool
  | _, _, 0 => true
  | [], [], _ + 1 => true
  | a :: as, b :: bs, n + 1 => a == b && strncmpEq as bs n
  | _, _, _ + 1 => false

/-- Compared over the whole of its first argument, `strncmp` tests for a prefix. -/
theorem strncmpEq_length_iff (a b : Bytes) : strncmpEq a b a.length = true ↔ a <+: b := by
  induction a generalizing b with
  | nil => simp [strncmpEq]
  | cons x xs ih =>
      cases b with
      | nil => simp [strncmpEq]
      | cons y ys => simp [strncmpEq, ih, List.cons_prefix_cons]

/-! ## Character classes of the C locale -/

def isalnum (b : UInt8) : Bool :=
  (0x30 ≤ b && b ≤ 0x39) || (0x41 ≤ b && b ≤ 0x5A) || (0x61 ≤ b && b ≤ 0x7A)

def isprint (b : UInt8) : Bool := 0x20 ≤ b && b ≤ 0x7E

def isspace (b : UInt8) : Bool := b == 0x20 || (0x09 ≤ b && b ≤ 0x0D)

end Feedserver.Theory
