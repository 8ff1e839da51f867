/-
# Theory.JsonQuoting — text put between quotation marks as it is

A program that writes JSON by pasting a text between two quotation marks, without escaping
it, writes a string that may be read as another, or as more than a string.

* `run_quoted`: if the line can be read at all, some string is read from its front.
* `quoted_weight`: that string, and any other read from the text, is no heavier than the
  text is long; so a text that needs an escape is never read back (`not_read_back`).
* `Verbatim`: the text is read back as it is, or the line cannot be read. In a line that
  can be read, only plain text is verbatim (`plain_of_verbatim`).
-/
import Feedserver.Theory.JsonLexer

namespace Feedserver.Theory.Json

set_option autoImplicit false

variable {st st' : LexState} {tokens : List Token}

/-- After a line break the machine is between tokens. -/
theorem run_newline {line : Bytes} (ran : run st (line ++ [0x0A]) = some (st', tokens)) :
    st' = .between := by
  obtain ⟨mid, _, _, _, last, _⟩ := run_append_eq_some.1 ran
  obtain ⟨_, _, _, stepped, ended, _⟩ := run_cons_eq_some.1 last
  obtain ⟨rfl, -⟩ : st' = _ ∧ _ := by simpa [run] using ended.symm
  exact newline_ends stepped

/-- A string is not open over the end of a line. -/
theorem run_unclosed (inside : st.InString) {line : Bytes} (noQuote : 0x22 ∉ line) :
    run st (line ++ [0x0A]) = none := by
  rw [Option.eq_none_iff_forall_ne_some]
  rintro ⟨st', tokens⟩ ran
  rcases run_inString inside ran with ⟨open_, -⟩ | ⟨s, before, after, rest, text, -, -, -⟩
  · rw [run_newline ran] at open_
    exact open_
  · have quote : (0x22 : UInt8) ∈ line ++ [0x0A] := by simp [text]
    rcases List.mem_append.1 quote with member | member
    · exact noQuote member
    · exact absurd member (by decide)

/-- A line with a quoted text in it: a string is read from the front of the text, more
tokens perhaps from what is left of it, and no string from the rest of the line. -/
theorem run_quoted {t n line : Bytes} (noQuote : 0x22 ∉ line)
    (ran : run (.text t) (n ++ 0x22 :: (line ++ [0x0A])) = some (st, tokens)) :
    st = .between ∧ ∃ mid s rest last, run (.text t) (n ++ [0x22]) = some (mid, .string s :: rest) ∧
      run mid (line ++ [0x0A]) = some (st, last) ∧ tokens = .string s :: rest ++ last := by
  have split : n ++ 0x22 :: (line ++ [0x0A]) = (n ++ [0x22]) ++ (line ++ [0x0A]) := by simp
  rw [split] at ran
  obtain ⟨mid, first, last, ranText, ranLine, rfl⟩ := run_append_eq_some.1 ran
  refine ⟨run_newline ranLine, ?_⟩
  have inside : (LexState.text t).InString := trivial
  rcases run_inString inside ranText with ⟨open_, -⟩ | ⟨s, before, after, rest, -, rfl, -, -⟩
  · rw [run_unclosed open_ noQuote] at ranLine
    cases ranLine
  · exact ⟨mid, s, rest, last, ranText, ranLine, rfl⟩

/-- No string read from a quoted text is heavier than the text is long. -/
theorem quoted_weight {n s : Bytes} (ran : run (.text []) (n ++ [0x22]) = some (st, tokens))
    (read : Token.string s ∈ tokens) : weight s ≤ n.length := by
  have bound := run_weight ran s read
  simp only [LexState.cost, List.length_append, List.length_singleton] at bound
  have : weight [] = 0 := rfl
  omega

/-- Text that needs an escape is not among the strings read from it. -/
theorem not_read_back {n : Bytes} (escaped : ¬ Plain n)
    (ran : run (.text []) (n ++ [0x22]) = some (st, tokens)) : Token.string n ∉ tokens := by
  intro read
  have bound := quoted_weight ran read
  rw [weight_of_not_plain escaped] at bound
  omega

/-- Plain text is the only string read from it, also behind other text. -/
theorem run_quoted_plain {t n : Bytes} (plain : Plain n) :
    run (.text t) (n ++ [0x22]) = some (.between, [.string (t ++ n)]) := by
  have closing : run (.text (t ++ n)) [0x22] = some (.between, [.string (t ++ n)]) := rfl
  exact run_append (run_plain plain) closing

/-- The string that the text begins when it stands between quotation marks, if it can be
read at all. -/
def quotedString (n : Bytes) : Option Bytes :=
  match run (.text []) (n ++ [0x22]) with
  | some (_, .string s :: _) => some s
  | _ => none

/-- Between quotation marks the text is read as itself or not at all. -/
def Verbatim (n : Bytes) : Prop := quotedString n = none ∨ quotedString n = some n

instance (n : Bytes) : Decidable (Verbatim n) := inferInstanceAs (Decidable (_ ∨ _))

theorem verbatim_of_plain {n : Bytes} (plain : Plain n) : Verbatim n := by
  refine .inr ?_
  unfold quotedString
  rw [run_quoted_plain plain]
  rfl

theorem eq_of_verbatim {n s : Bytes} {rest : List Token} (verbatim : Verbatim n)
    (ran : run (.text []) (n ++ [0x22]) = some (st, .string s :: rest)) : s = n := by
  have read : quotedString n = some s := by
    unfold quotedString
    rw [ran]
  rcases verbatim with none | same
  · rw [none] at read
    cases read
  · exact Option.some.inj (read.symm.trans same)

/-- What is verbatim and can be read needs no escape. -/
theorem plain_of_verbatim {n s : Bytes} {rest : List Token} (verbatim : Verbatim n)
    (ran : run (.text []) (n ++ [0x22]) = some (st, .string s :: rest)) : Plain n := by
  obtain rfl := eq_of_verbatim verbatim ran
  by_contra escaped
  exact not_read_back escaped ran List.mem_cons_self

end Feedserver.Theory.Json
