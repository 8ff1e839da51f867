/-
# Theory.Decimal — numbers in decimal, as C prints and reads them

* `decimal` — what `%d` prints. `strtol` — what `strtol(s, NULL, 10)` reads, before it is cut to
  a size: blanks, a sign, and then digits, up to whatever is no digit.
* `strtol_decimal`: what has been printed is read back, also behind blanks (`strtol_blank`).
* `sign_of_negative`: a number below zero has its sign in front, behind the blanks.
-/
import Feedserver.Theory.Bytes

namespace Feedserver.Theory

set_option autoImplicit false

def isdigit (b : UInt8) : Bool := 0x30 ≤ b && b ≤ 0x39

def digits (n : Nat) : Bytes := (Nat.toDigits 10 n).map fun c => UInt8.ofNat c.toNat

def decimal : Int → Bytes
  | .ofNat n => digits n
  | .negSucc n => 0x2D :: digits (n + 1)

def digitsValue (ds : Bytes) : Nat := ds.foldl (fun n d => 10 * n + (d.toNat - 0x30)) 0

def strtol (s : Bytes) : Int :=
  match s.dropWhile isspace with
  | [] => 0
  | sign :: rest =>
      if sign = 0x2D then -(digitsValue (rest.takeWhile isdigit) : Int)
      else if sign = 0x2B then digitsValue (rest.takeWhile isdigit)
      else digitsValue ((sign :: rest).takeWhile isdigit)

/-! ## What is printed is read back -/

/-- A digit as a byte. -/
theorem byte_of_digit {c : Char} (digit : c.isDigit) :
    isdigit (UInt8.ofNat c.toNat) = true ∧ (UInt8.ofNat c.toNat).toNat = c.toNat := by
  obtain ⟨low, high⟩ := Char.isDigit_iff_toNat.1 digit
  have low : 48 ≤ c.toNat := low
  have high : c.toNat ≤ 57 := high
  have same : (UInt8.ofNat c.toNat).toNat = c.toNat := by
    rw [UInt8.toNat_ofNat']
    omega
  refine ⟨?_, same⟩
  simp only [isdigit, Bool.and_eq_true, decide_eq_true_eq, UInt8.le_iff_toNat_le, same]
  exact ⟨low, high⟩

theorem isdigit_digits {n : Nat} {b : UInt8} (member : b ∈ digits n) : isdigit b = true := by
  obtain ⟨c, inside, rfl⟩ := List.mem_map.1 member
  exact (byte_of_digit (Nat.isDigit_of_mem_toDigits (by decide) (by decide) inside)).1

theorem digitsValue_digits (n : Nat) : digitsValue (digits n) = n := by
  have fold (cs : List Char) (all : ∀ c ∈ cs, c.isDigit) (init : Nat) :
      (cs.map fun c => UInt8.ofNat c.toNat).foldl (fun n d => 10 * n + (d.toNat - 0x30)) init =
        Nat.ofDigitChars 10 cs init := by
    induction cs generalizing init with
    | nil => rfl
    | cons c cs ih =>
        obtain ⟨digit, others⟩ := List.forall_mem_cons.1 all
        rw [List.map_cons, List.foldl_cons, (byte_of_digit digit).2, Nat.ofDigitChars_cons]
        exact ih others _
  have read := fold (Nat.toDigits 10 n)
    (fun c inside => Nat.isDigit_of_mem_toDigits (by decide) (by decide) inside) 0
  rw [Nat.ofDigitChars_ten_toDigits] at read
  exact read

/-- A digit is neither a sign nor a blank. -/
theorem ne_of_isdigit {b : UInt8} (digit : isdigit b = true) :
    b ≠ 0 ∧ b ≠ 0x2D ∧ b ≠ 0x2B ∧ isspace b = false := by
  simp only [isdigit, Bool.and_eq_true, decide_eq_true_eq, UInt8.le_iff_toNat_le] at digit
  obtain ⟨low, high⟩ := digit
  have low : 48 ≤ b.toNat := low
  have high : b.toNat ≤ 57 := high
  have other (c : UInt8) (below : c.toNat < 48) : b ≠ c := by
    rintro rfl
    omega
  refine ⟨other 0 (by decide), other 0x2D (by decide), other 0x2B (by decide), ?_⟩
  have notBlank : ¬ b ≤ 0x0D := by
    rw [UInt8.le_iff_toNat_le]
    show ¬ b.toNat ≤ 13
    omega
  simp [isspace, notBlank, other 0x20 (by decide)]

theorem digits_ne_nil (n : Nat) : digits n ≠ [] := by
  simp [digits, Nat.toDigits_ne_nil]

theorem takeWhile_digits (n : Nat) : (digits n).takeWhile isdigit = digits n :=
  List.takeWhile_eq_self_iff.2 fun _ => isdigit_digits

theorem strtol_digits (n : Nat) : strtol (digits n) = n := by
  have value := digitsValue_digits n
  have all := takeWhile_digits n
  unfold strtol
  cases shown : digits n with
  | nil => exact absurd shown (digits_ne_nil n)
  | cons first rest =>
      obtain ⟨-, notMinus, notPlus, notBlank⟩ :=
        ne_of_isdigit (isdigit_digits (shown ▸ List.mem_cons_self : first ∈ digits n))
      rw [shown] at value all
      rw [List.dropWhile_cons_of_neg (by simp [notBlank])]
      simp only [if_neg notMinus, if_neg notPlus, all, value]

theorem strtol_decimal (i : Int) : strtol (decimal i) = i := by
  cases i with
  | ofNat n => exact strtol_digits n
  | negSucc n =>
      show -(digitsValue ((digits (n + 1)).takeWhile isdigit) : Int) = _
      rw [takeWhile_digits, digitsValue_digits]
      rfl

theorem strtol_blank {b : UInt8} (blank : isspace b = true) (s : Bytes) :
    strtol (b :: s) = strtol s := by
  unfold strtol
  rw [List.dropWhile_cons_of_pos blank]

/-- A number below zero has its sign in front. -/
theorem sign_of_negative {s : Bytes} (negative : strtol s < 0) :
    (s.dropWhile isspace).head? = some 0x2D := by
  unfold strtol at negative
  cases shown : s.dropWhile isspace with
  | nil => simp [shown] at negative
  | cons sign rest =>
      rw [shown] at negative
      dsimp only at negative
      by_cases minus : sign = 0x2D
      · rw [minus]
        rfl
      · rw [if_neg minus] at negative
        split at negative <;> omega

theorem nulFree_decimal (i : Int) : (0 : UInt8) ∉ decimal i := by
  have free (n : Nat) : (0 : UInt8) ∉ digits n := fun member =>
    (ne_of_isdigit (isdigit_digits member)).1 rfl
  cases i with
  | ofNat n => exact free n
  | negSucc n => simp [decimal, free]

example : (decimal (-70), strtol (ascii " +12x3")) = (ascii "-70", 12) := by decide

end Feedserver.Theory
