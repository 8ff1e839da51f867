/-
# Theory.JsonLexer — RFC 8259 tokens, read one byte at a time

The lexical half of JSON as a machine over bytes: a state, one step per byte, the tokens
each step completes. Strings come out decoded (escapes resolved, `\uXXXX` as UTF-8, a
surrogate pair as one code point); a number keeps its literal. A raw control character,
a `"`, a `\` that starts no escape and a lone surrogate have no step inside a string.

A machine that reads byte by byte splits at every byte, so a text put together from
pieces is lexed piece by piece (`run_append`). Three facts carry everything said about
texts with arbitrary bytes pasted into them:

* `run_plain`: bytes that need no escape are read back as themselves;
* `newline_ends`: no token reaches over a line break, so after one the machine is between
  tokens whatever stood before;
* `run_weight`: a string is read from at least as many bytes as it has, and from more
  when it has a byte that needs an escape (`weight`).
-/
import Feedserver.Theory.Bytes
import Mathlib.Tactic.SplitIfs

namespace Feedserver.Theory.Json

set_option autoImplicit false

inductive Token where
  | beginObject
  | endObject
  | beginArray
  | endArray
  | nameSeparator
  | valueSeparator
  | string (s : Bytes)
  | integer (literal : Bytes)
  | double (literal : Bytes)
  | boolean (b : Bool)
  | null
deriving DecidableEq

def punctuation (b : UInt8) : Option Token :=
  if b = 0x7B then some .beginObject
  else if b = 0x7D then some .endObject
  else if b = 0x5B then some .beginArray
  else if b = 0x5D then some .endArray
  else if b = 0x3A then some .nameSeparator
  else if b = 0x2C then some .valueSeparator
  else none

/-! ## Literal names -/

inductive Literal where
  | true
  | false
  | null
deriving DecidableEq

def Literal.text : Literal → Bytes
  | .true => [0x74, 0x72, 0x75, 0x65]
  | .false => [0x66, 0x61, 0x6C, 0x73, 0x65]
  | .null => [0x6E, 0x75, 0x6C, 0x6C]

/-- The literal name that begins with this byte. -/
def Literal.first (b : UInt8) : Option Literal :=
  if b = 0x74 then some .true
  else if b = 0x66 then some .false
  else if b = 0x6E then some .null
  else none

def Literal.token : Literal → Token
  | .true => .boolean Bool.true
  | .false => .boolean Bool.false
  | .null => .null

/-! ## Numbers -/

/-- How far into `[-] int [frac] [exp]` a number has been read. -/
inductive NumberPart where
  | minus
  | zero
  | digits
  | point
  | fraction
  | exponent
  | sign
  | power
deriving DecidableEq

def isDigit (b : UInt8) : Bool := 0x30 ≤ b && b ≤ 0x39

def isExponent (b : UInt8) : Bool := b == 0x65 || b == 0x45

/-- The part of a number that its first byte is. -/
def NumberPart.first (b : UInt8) : Option NumberPart :=
  if b = 0x2D then some .minus
  else if b = 0x30 then some .zero
  else if isDigit b then some .digits else none

def NumberPart.next : NumberPart → UInt8 → Option NumberPart
  | .minus, b => if b = 0x30 then some .zero else if isDigit b then some .digits else none
  | .zero, b => if b = 0x2E then some .point else if isExponent b then some .exponent else none
  | .digits, b =>
      if isDigit b then some .digits
      else if b = 0x2E then some .point
      else if isExponent b then some .exponent else none
  | .point, b => if isDigit b then some .fraction else none
  | .fraction, b =>
      if isDigit b then some .fraction else if isExponent b then some .exponent else none
  | .exponent, b =>
      if b = 0x2B ∨ b = 0x2D then some .sign else if isDigit b then some .power else none
  | .sign, b => if isDigit b then some .power else none
  | .power, b => if isDigit b then some .power else none

/-- The token of a number that ends here, where one may end. -/
def NumberPart.token (literal : Bytes) : NumberPart → Option Token
  | .zero => some (.integer literal)
  | .digits => some (.integer literal)
  | .fraction => some (.double literal)
  | .power => some (.double literal)
  | _ => none

/-! ## Strings -/

/-- `unescaped` of RFC 8259: a byte that stands for itself between quotation marks. -/
def Unescaped (b : UInt8) : Prop := 0x20 ≤ b ∧ b ≠ 0x22 ∧ b ≠ 0x5C

instance (b : UInt8) : Decidable (Unescaped b) := inferInstanceAs (Decidable (_ ∧ _ ∧ _))

/-- Text that stands for itself between quotation marks. -/
def Plain (s : Bytes) : Prop := ∀ b ∈ s, Unescaped b

instance (s : Bytes) : Decidable (Plain s) := List.decidableBAll Unescaped s

def hexDigit (b : UInt8) : Option Nat :=
  if 0x30 ≤ b ∧ b ≤ 0x39 then some (b.toNat - 0x30)
  else if 0x41 ≤ b ∧ b ≤ 0x46 then some (b.toNat - 0x41 + 10)
  else if 0x61 ≤ b ∧ b ≤ 0x66 then some (b.toNat - 0x61 + 10)
  else none

/-- What the two-character escape with this second character stands for. -/
def simpleEscape (b : UInt8) : Option UInt8 :=
  if b = 0x22 then some 0x22
  else if b = 0x5C then some 0x5C
  else if b = 0x2F then some 0x2F
  else if b = 0x62 then some 0x08
  else if b = 0x66 then some 0x0C
  else if b = 0x6E then some 0x0A
  else if b = 0x72 then some 0x0D
  else if b = 0x74 then some 0x09
  else none

/-- UTF-8 of a code point. -/
def utf8 (point : Nat) : Bytes :=
  if point < 0x80 then [.ofNat point]
  else if point < 0x800 then [.ofNat (0xC0 + point / 0x40), .ofNat (0x80 + point % 0x40)]
  else if point < 0x10000 then
    [.ofNat (0xE0 + point / 0x1000), .ofNat (0x80 + point / 0x40 % 0x40),
      .ofNat (0x80 + point % 0x40)]
  else
    [.ofNat (0xF0 + point / 0x40000), .ofNat (0x80 + point / 0x1000 % 0x40),
      .ofNat (0x80 + point / 0x40 % 0x40), .ofNat (0x80 + point % 0x40)]

theorem utf8_length_le (point : Nat) : (utf8 point).length ≤ 4 := by
  unfold utf8
  split
  · simp
  · split
    · simp
    · split <;> simp

/-! ## The machine -/

inductive LexState where
  | between
  | word (literal : Literal) (read : Nat)
  | number (part : NumberPart) (literal : Bytes)
  | text (s : Bytes)
  | escape (s : Bytes)
  /-- `digits` of the four hexadecimal digits read; `high` is a first surrogate. -/
  | unicode (s : Bytes) (high : Option Nat) (digits value : Nat)
  | lowEscape (s : Bytes) (high : Nat)
  | lowMark (s : Bytes) (high : Nat)
deriving DecidableEq

def isWs (b : UInt8) : Bool := b == 0x20 || b == 0x09 || b == 0x0A || b == 0x0D

/-- A byte read between tokens. -/
def startStep (b : UInt8) : Option (LexState × List Token) :=
  if isWs b then some (.between, [])
  else if b = 0x22 then some (.text [], [])
  else
    match punctuation b with
    | some token => some (.between, [token])
    | none =>
        match Literal.first b with
        | some literal => some (.word literal 1, [])
        | none => (NumberPart.first b).map fun part => (.number part [b], [])

/-- The four digits of a `\u` escape are complete. -/
def unicodeStep (s : Bytes) (high : Option Nat) (value : Nat) : Option LexState :=
  match high with
  | none =>
      if 0xD800 ≤ value ∧ value < 0xDC00 then some (.lowEscape s value)
      else if 0xDC00 ≤ value ∧ value < 0xE000 then none
      else some (.text (s ++ utf8 value))
  | some high =>
      if 0xDC00 ≤ value ∧ value < 0xE000 then
        some (.text (s ++ utf8 (0x10000 + (high - 0xD800) * 0x400 + (value - 0xDC00))))
      else none

def step : LexState → UInt8 → Option (LexState × List Token)
  | .between, b => startStep b
  | .word literal read, b =>
      if literal.text[read]? = some b then
        if read + 1 = literal.text.length then some (.between, [literal.token])
        else some (.word literal (read + 1), [])
      else none
  | .number part literal, b =>
      match part.next b with
      | some part' => some (.number part' (literal ++ [b]), [])
      | none =>
          match part.token literal, startStep b with
          | some token, some (st, tokens) => some (st, token :: tokens)
          | _, _ => none
  | .text s, b =>
      if b = 0x22 then some (.between, [.string s])
      else if b = 0x5C then some (.escape s, [])
      else if 0x20 ≤ b then some (.text (s ++ [b]), [])
      else none
  | .escape s, b =>
      if b = 0x75 then some (.unicode s none 0 0, [])
      else (simpleEscape b).map fun c => (.text (s ++ [c]), [])
  | .unicode s high digits value, b =>
      match hexDigit b with
      | none => none
      | some digit =>
          if digits < 3 then some (.unicode s high (digits + 1) (value * 16 + digit), [])
          else (unicodeStep s high (value * 16 + digit)).map fun st => (st, [])
  | .lowEscape s high, b => if b = 0x5C then some (.lowMark s high, []) else none
  | .lowMark s high, b => if b = 0x75 then some (.unicode s (some high) 0 0, []) else none

/-- Read a text from a state; the tokens it completes, and the state it ends in. -/
def run : LexState → Bytes → Option (LexState × List Token)
  | st, [] => some (st, [])
  | st, b :: bs =>
      match step st b with
      | none => none
      | some (st', tokens) => (run st' bs).map fun (st'', rest) => (st'', tokens ++ rest)

/-- What the end of the text completes. -/
def LexState.finish : LexState → Option (List Token)
  | .between => some []
  | .number part literal => (part.token literal).map fun token => [token]
  | _ => none

/-- The tokens of a text. -/
def lex (text : Bytes) : Option (List Token) :=
  match run .between text with
  | none => none
  | some (st, tokens) => st.finish.map fun last => tokens ++ last

/-! ## Reading in pieces -/

theorem run_cons_eq_some {st st'' : LexState} {b : UInt8} {bs : Bytes} {tokens : List Token} :
    run st (b :: bs) = some (st'', tokens) ↔
      ∃ st' first rest, step st b = some (st', first) ∧ run st' bs = some (st'', rest) ∧
        tokens = first ++ rest := by
  simp only [run]
  cases stepped : step st b with
  | none => simp
  | some result =>
      obtain ⟨st', first⟩ := result
      simp only [Option.map_eq_some_iff, Prod.mk.injEq, Prod.exists, Option.some.injEq]
      constructor
      · rintro ⟨_, rest, ran, rfl, rfl⟩; exact ⟨st', first, rest, ⟨rfl, rfl⟩, ran, rfl⟩
      · rintro ⟨_, _, rest, ⟨rfl, rfl⟩, ran, rfl⟩; exact ⟨_, rest, ran, rfl, rfl⟩

theorem run_append_eq_some {st st'' : LexState} {a b : Bytes} {tokens : List Token} :
    run st (a ++ b) = some (st'', tokens) ↔
      ∃ st' first rest, run st a = some (st', first) ∧ run st' b = some (st'', rest) ∧
        tokens = first ++ rest := by
  induction a generalizing st tokens with
  | nil => simp [run]
  | cons x xs ih =>
      simp only [List.cons_append, run_cons_eq_some, ih]
      constructor
      · rintro ⟨st₁, t₁, _, stepped, ⟨st₂, t₂, t₃, ran, ranRest, rfl⟩, rfl⟩
        exact ⟨st₂, t₁ ++ t₂, t₃, ⟨st₁, t₁, t₂, stepped, ran, rfl⟩, ranRest, by simp⟩
      · rintro ⟨st₂, _, t₃, ⟨st₁, t₁, t₂, stepped, ran, rfl⟩, ranRest, rfl⟩
        exact ⟨st₁, t₁, t₂ ++ t₃, stepped, ⟨st₂, t₂, t₃, ran, ranRest, rfl⟩, by simp⟩

theorem run_append {st st' st'' : LexState} {a b : Bytes} {first rest : List Token}
    (ranA : run st a = some (st', first)) (ranB : run st' b = some (st'', rest)) :
    run st (a ++ b) = some (st'', first ++ rest) :=
  run_append_eq_some.2 ⟨st', first, rest, ranA, ranB, rfl⟩

theorem step_text_unescaped {s : Bytes} {b : UInt8} (plain : Unescaped b) :
    step (.text s) b = some (.text (s ++ [b]), []) := by
  obtain ⟨printable, notQuote, notBackslash⟩ := plain
  simp [step, printable, notQuote, notBackslash]

/-- Inside a string, plain text is read back as itself. -/
theorem run_plain {s x : Bytes} (plain : Plain x) :
    run (.text s) x = some (.text (s ++ x), []) := by
  induction x generalizing s with
  | nil => simp [run]
  | cons b bs ih =>
      refine run_cons_eq_some.2 ⟨_, [], [], step_text_unescaped (plain b (by simp)), ?_, rfl⟩
      rw [ih fun c member => plain c (List.mem_cons_of_mem _ member)]
      simp

/-! ## Line breaks -/

theorem literal_no_newline (literal : Literal) (read : Nat) :
    literal.text[read]? ≠ some 0x0A := by
  intro found
  have member := List.mem_of_getElem? found
  cases literal <;> simp [Literal.text] at member

theorem next_newline (part : NumberPart) : part.next 0x0A = none := by
  cases part <;> rfl

/-- No token reaches over a line break. -/
theorem newline_ends {st st' : LexState} {tokens : List Token}
    (stepped : step st 0x0A = some (st', tokens)) : st' = .between := by
  cases st with
  | between => simp [step, startStep, isWs] at stepped; exact stepped.1.symm
  | word literal read => simp [step, literal_no_newline] at stepped
  | number part literal =>
      simp only [step, next_newline] at stepped
      split at stepped
      · rename_i started
        cases stepped
        simp [startStep, isWs] at started
        exact started.1.symm
      · cases stepped
  | text s => simp [step] at stepped
  | escape s => simp [step, simpleEscape] at stepped
  | unicode s high digits value => simp [step, hexDigit] at stepped
  | lowEscape s high => simp [step] at stepped
  | lowMark s high => simp [step] at stepped

/-! ## NUL bytes -/

theorem literal_no_nul (literal : Literal) (read : Nat) : literal.text[read]? ≠ some 0 := by
  intro found
  have member := List.mem_of_getElem? found
  cases literal <;> simp [Literal.text] at member

theorem next_nul (part : NumberPart) : part.next 0 = none := by
  cases part <;> rfl

/-- No state has a step for a NUL byte. -/
theorem step_nul (st : LexState) : step st 0 = none := by
  cases st with
  | between => rfl
  | word literal read => simp [step, literal_no_nul]
  | number part literal =>
      have started : startStep 0 = none := rfl
      simp [step, next_nul, started]
  | text s => rfl
  | escape s => rfl
  | unicode s high digits value => rfl
  | lowEscape s high => rfl
  | lowMark s high => rfl

theorem nulFree_of_run {st st' : LexState} {text : Bytes} {tokens : List Token}
    (ran : run st text = some (st', tokens)) : 0 ∉ text := by
  induction text generalizing st tokens with
  | nil => simp
  | cons b bs ih =>
      obtain ⟨st₁, first, rest, stepped, ranRest, -⟩ := run_cons_eq_some.1 ran
      have notNul : 0 ≠ b := by
        rintro rfl
        rw [step_nul] at stepped
        cases stepped
      intro member
      rcases List.mem_cons.1 member with same | later
      · exact notNul same
      · exact ih ranRest later

/-! ## How much text a string takes -/

/-- The bytes of a string, and one more when some byte of it must be escaped. -/
def weight (s : Bytes) : Nat := s.length + if Plain s then 0 else 1

theorem length_le_weight (s : Bytes) : s.length ≤ weight s := by unfold weight; omega

theorem weight_of_not_plain {s : Bytes} (escaped : ¬ Plain s) : weight s = s.length + 1 := by
  simp [weight, escaped]

theorem weight_append_le (s t : Bytes) : weight (s ++ t) ≤ weight s + t.length + 1 := by
  unfold weight
  rw [List.length_append]
  split <;> split <;> omega

theorem weight_append_unescaped {s : Bytes} {b : UInt8} (plain : Unescaped b) :
    weight (s ++ [b]) ≤ weight s + 1 := by
  unfold weight
  have : Plain s → Plain (s ++ [b]) := by
    intro h c member
    rcases List.mem_append.1 member with member | member
    · exact h c member
    · exact List.mem_singleton.1 member ▸ plain
  rw [List.length_append, List.length_singleton]
  split
  · omega
  · rename_i notPlain
    rw [if_neg fun h => notPlain (this h)]

/-- The bytes a state has at least read since its string began. -/
def LexState.cost : LexState → Nat
  | .text s => weight s
  | .escape s => weight s + 1
  | .unicode s none digits _ => weight s + 2 + digits
  | .unicode s (some _) digits _ => weight s + 8 + digits
  | .lowEscape s _ => weight s + 6
  | .lowMark s _ => weight s + 7
  | _ => 0

/-- The states between a quotation mark and the one that closes it. -/
def LexState.InString : LexState → Prop
  | .text _ | .escape _ | .unicode _ _ _ _ | .lowEscape _ _ | .lowMark _ _ => True
  | _ => False

theorem punctuation_not_string {b : UInt8} {s : Bytes} : punctuation b ≠ some (.string s) := by
  unfold punctuation
  split_ifs <;> simp

theorem startStep_cost {b : UInt8} {st : LexState} {tokens : List Token}
    (stepped : startStep b = some (st, tokens)) :
    st.cost = 0 ∧ ∀ s, Token.string s ∉ tokens := by
  unfold startStep at stepped
  split at stepped
  · cases stepped; simp [LexState.cost]
  · split at stepped
    · cases stepped; simp [LexState.cost, weight, Plain]
    · split at stepped
      · rename_i token found
        cases stepped
        refine ⟨rfl, ?_⟩
        intro s member
        rw [← List.mem_singleton.1 member] at found
        exact punctuation_not_string found
      · split at stepped
        · cases stepped; simp [LexState.cost]
        · simp only [Option.map_eq_some_iff] at stepped
          obtain ⟨part, -, stepped⟩ := stepped
          cases stepped; simp [LexState.cost]

theorem numberToken_not_string {part : NumberPart} {literal s : Bytes} :
    part.token literal ≠ some (.string s) := by
  cases part <;> simp [NumberPart.token]

theorem unicodeStep_cost {s : Bytes} {high : Option Nat} {value : Nat} {st : LexState}
    (stepped : unicodeStep s high value = some st) :
    st.InString ∧ st.cost ≤ (LexState.unicode s high 3 0).cost + 1 := by
  have grows (point : Nat) : weight (s ++ utf8 point) ≤ weight s + 5 := by
    have := weight_append_le s (utf8 point)
    have := utf8_length_le point
    omega
  cases high with
  | none =>
      simp only [unicodeStep] at stepped
      split_ifs at stepped <;> cases stepped
      · simp [LexState.cost, LexState.InString]
      · have := grows value
        exact ⟨trivial, by simp only [LexState.cost]; omega⟩
  | some high =>
      simp only [unicodeStep] at stepped
      split_ifs at stepped
      cases stepped
      have := grows (0x10000 + (high - 0xD800) * 0x400 + (value - 0xDC00))
      exact ⟨trivial, by simp only [LexState.cost]; omega⟩

/-- A step inside a string stays inside it, one byte further on, or closes it. -/
theorem step_inString {st st' : LexState} {b : UInt8} {tokens : List Token}
    (inside : st.InString) (stepped : step st b = some (st', tokens)) :
    (st'.InString ∧ tokens = [] ∧ st'.cost ≤ st.cost + 1) ∨
      (b = 0x22 ∧ st' = .between ∧ ∃ s, tokens = [.string s] ∧ st = .text s) := by
  cases st with
  | text s =>
      simp only [step] at stepped
      split_ifs at stepped with quote backslash printable <;> cases stepped
      · exact .inr ⟨quote, rfl, s, rfl, rfl⟩
      · exact .inl ⟨trivial, rfl, by simp [LexState.cost]⟩
      · exact .inl ⟨trivial, rfl, weight_append_unescaped ⟨printable, quote, backslash⟩⟩
  | escape s =>
      simp only [step] at stepped
      split_ifs at stepped
      · cases stepped; exact .inl ⟨trivial, rfl, by simp [LexState.cost]⟩
      · simp only [Option.map_eq_some_iff] at stepped
        obtain ⟨c, -, stepped⟩ := stepped
        cases stepped
        have := weight_append_le s [c]
        exact .inl ⟨trivial, rfl, by simp only [LexState.cost, List.length_singleton] at *; omega⟩
  | unicode s high digits value =>
      simp only [step] at stepped
      split at stepped
      · cases stepped
      · split_ifs at stepped with more
        · cases stepped
          exact .inl ⟨trivial, rfl, by cases high <;> simp only [LexState.cost] <;> omega⟩
        · simp only [Option.map_eq_some_iff] at stepped
          obtain ⟨st, completed, stepped⟩ := stepped
          cases stepped
          obtain ⟨stays, bound⟩ := unicodeStep_cost completed
          refine .inl ⟨stays, rfl, ?_⟩
          cases high <;> simp only [LexState.cost] at bound ⊢ <;> omega
  | lowEscape s high =>
      simp only [step] at stepped
      split_ifs at stepped
      cases stepped
      exact .inl ⟨trivial, rfl, by simp [LexState.cost]⟩
  | lowMark s high =>
      simp only [step] at stepped
      split_ifs at stepped
      cases stepped
      exact .inl ⟨trivial, rfl, by simp [LexState.cost]⟩
  | between => exact inside.elim
  | word literal read => exact inside.elim
  | number part literal => exact inside.elim

/-- Outside a string a step completes no string. -/
theorem step_outside {st st' : LexState} {b : UInt8} {tokens : List Token}
    (outside : ¬ st.InString) (stepped : step st b = some (st', tokens)) :
    st'.cost = 0 ∧ ∀ s, Token.string s ∉ tokens := by
  cases st with
  | between => exact startStep_cost stepped
  | word literal read =>
      simp only [step] at stepped
      split_ifs at stepped <;> cases stepped
      · cases literal <;> simp [LexState.cost, Literal.token]
      · simp [LexState.cost]
  | number part literal =>
      simp only [step] at stepped
      split at stepped
      · cases stepped; simp [LexState.cost]
      · split at stepped
        · rename_i token _ _ completed started
          cases stepped
          obtain ⟨zero, none⟩ := startStep_cost started
          refine ⟨zero, ?_⟩
          intro s member
          rcases List.mem_cons.1 member with same | member
          · exact numberToken_not_string (same ▸ completed)
          · exact none s member
        · cases stepped
  | text s => exact (outside trivial).elim
  | escape s => exact (outside trivial).elim
  | unicode s high digits value => exact (outside trivial).elim
  | lowEscape s high => exact (outside trivial).elim
  | lowMark s high => exact (outside trivial).elim

/-- A string is completed by its closing quotation mark and by nothing else. -/
theorem step_string {st st' : LexState} {b : UInt8} {tokens : List Token} {s : Bytes}
    (stepped : step st b = some (st', tokens)) (member : Token.string s ∈ tokens) :
    b = 0x22 ∧ st = .text s := by
  by_cases inside : st.InString
  · rcases step_inString inside stepped with ⟨-, rfl, -⟩ | ⟨quote, -, t, rfl, rfl⟩
    · simp at member
    · exact ⟨quote, by rw [Token.string.inj (List.mem_singleton.1 member)]⟩
  · exact absurd member ((step_outside inside stepped).2 s)

theorem step_cost {st st' : LexState} {b : UInt8} {tokens : List Token}
    (stepped : step st b = some (st', tokens)) : st'.cost ≤ st.cost + 1 := by
  by_cases inside : st.InString
  · rcases step_inString inside stepped with ⟨-, -, bound⟩ | ⟨-, rfl, -⟩
    · exact bound
    · simp [LexState.cost]
  · rw [(step_outside inside stepped).1]; omega

/-- A string takes at least its weight in text, and a closing quotation mark. -/
theorem run_weight {st st' : LexState} {text : Bytes} {tokens : List Token}
    (ran : run st text = some (st', tokens)) :
    ∀ s, Token.string s ∈ tokens → weight s + 1 ≤ st.cost + text.length := by
  induction text generalizing st tokens with
  | nil => simp [run] at ran; simp [ran.2]
  | cons b bs ih =>
      obtain ⟨st₁, first, rest, stepped, ranRest, rfl⟩ := run_cons_eq_some.1 ran
      intro s member
      simp only [List.length_cons]
      rcases List.mem_append.1 member with member | member
      · obtain ⟨-, rfl⟩ := step_string stepped member
        simp only [LexState.cost]; omega
      · have := ih ranRest s member
        have := step_cost stepped
        omega

/-- A text without quotation marks completes no string. -/
theorem run_no_quote {st st' : LexState} {text : Bytes} {tokens : List Token}
    (ran : run st text = some (st', tokens)) (noQuote : 0x22 ∉ text) (s : Bytes) :
    Token.string s ∉ tokens := by
  induction text generalizing st tokens with
  | nil => simp [run] at ran; simp [ran.2]
  | cons b bs ih =>
      obtain ⟨st₁, first, rest, stepped, ranRest, rfl⟩ := run_cons_eq_some.1 ran
      intro member
      rcases List.mem_append.1 member with member | member
      · exact noQuote (by simp [(step_string stepped member).1])
      · exact ih ranRest (fun h => noQuote (List.mem_cons_of_mem _ h)) member

/-- From inside a string: it is still open at the end, or it is the first token, and the
rest was read from between tokens after its closing quotation mark. -/
theorem run_inString {st st' : LexState} {text : Bytes} {tokens : List Token}
    (inside : st.InString) (ran : run st text = some (st', tokens)) :
    (st'.InString ∧ tokens = []) ∨
      ∃ s before after rest, text = before ++ 0x22 :: after ∧ tokens = .string s :: rest ∧
        run .between after = some (st', rest) ∧ weight s ≤ st.cost + before.length := by
  induction text generalizing st tokens with
  | nil => simp [run] at ran; exact .inl ⟨ran.1 ▸ inside, ran.2⟩
  | cons b bs ih =>
      obtain ⟨st₁, first, rest, stepped, ranRest, rfl⟩ := run_cons_eq_some.1 ran
      rcases step_inString inside stepped with ⟨stays, rfl, bound⟩ | ⟨rfl, rfl, s, rfl, rfl⟩
      · rcases ih stays ranRest with ⟨open_, rfl⟩ | ⟨s, before, after, tail, rfl, rfl, ranAfter, le⟩
        · exact .inl ⟨open_, rfl⟩
        · refine .inr ⟨s, b :: before, after, tail, rfl, rfl, ranAfter, ?_⟩
          simp only [List.length_cons]; omega
      · exact .inr ⟨s, [], bs, rest, rfl, rfl, ranRest, by simp [LexState.cost]⟩

end Feedserver.Theory.Json
