/-
# Options.Flags — the flags of a command line, as a language

* `Given`: a flag as it stands on a command line, with the argument it takes; `Mistake`: what
  stands there instead and is refused, with a message; `TooLarge`: an integer that no `int` holds,
  which is not refused, but undefined.
* `front_cases`: a flag, one of these, or what ends the flags, and nothing else can stand in front.
* `flagLanguage`: how the flags of a configuration are spelled and recognised.
-/
import Feedserver.Source.OptParse
import Feedserver.Theory.Scanning

namespace Feedserver.Options

open Feedserver.Theory
open Feedserver.Source
open Scanning (Front Language)

set_option autoImplicit false

/-- A flag on a command line, the argument behind it if it takes one, and what is stored. -/
structure Given (D : Doubles) (Var : Type) where
  flag : OptFlag D Var
  text : Option CString
  value : Value D

/-- What a flag of this type stores for its argument. -/
def argument {D : Doubles} : OptFlagType → Option CString → Option (Value D)
  | .bool, none => some (.bool true)
  | .int, some text => (atoi text).map .int
  | .double, some text => some (.double (D.atof text))
  | .string, some text => some (.string text)
  | _, _ => none

/-- The flag of this name, as it is spelled. -/
def dashed (name : CString) : CString :=
  ⟨DASH :: DASH :: name.bytes, by simpa [DASH] using name.nulFree⟩

def StartsDash (text : CString) : Prop := text.bytes[0]? = some DASH

instance (text : CString) : Decidable (StartsDash text) :=
  inferInstanceAs (Decidable (text.bytes[0]? = some DASH))

section CommandLine

variable {D : Doubles} {Var : Type}

namespace Given

def spell (given : Given D Var) : List CString := dashed given.flag.name :: given.text.toList

/-- The configuration has this flag, first of its name, and the argument is one for it. -/
structure Of (flags : List (OptFlag D Var)) (given : Given D Var) : Prop where
  found : findFlag flags given.flag.name = some given.flag
  named : given.flag.name.bytes ≠ []
  noDash : ∀ text ∈ given.text, ¬ StartsDash text
  reads : argument given.flag.type given.text = some given.value

end Given

theorem Given.Of.mem {flags : List (OptFlag D Var)} {given : Given D Var} (of : given.Of flags) :
    given.flag ∈ flags := List.mem_of_find?_eq_some of.found

/-- Nothing behind the flags, or an argument that is no flag. -/
def Over (args : List CString) : Prop := ∀ arg ∈ args.head?, nonFlag arg = true

/-- What the error calls the argument. -/
def kind : OptFlagType → String
  | .bool => ""
  | .int => "an integer"
  | .double => "a double"
  | .string => "a string"

/-- What is wrong in front of these arguments, and what is said about it. -/
inductive Mistake (conf : OptConfig D Var) : List CString → Bytes → Prop where
  | unknown {arg : CString} {rest : List CString} (isFlag : nonFlag arg = false)
      (none_ : ∀ flag ∈ conf.flags, flag.name ≠ chomp arg) :
      Mistake conf (arg :: rest) (unrecognized (chomp arg))
  | missing {flag : OptFlag D Var} {rest : List CString}
      (found : findFlag conf.flags flag.name = some flag) (named : flag.name.bytes ≠ [])
      (valued : flag.type ≠ .bool) (none_ : ∀ text ∈ rest.head?, StartsDash text) :
      Mistake conf (dashed flag.name :: rest) (requires flag.name (kind flag.type))

/-- An integer in front of these arguments that no `int` holds. -/
inductive TooLarge (conf : OptConfig D Var) : List CString → Prop where
  | integer {flag : OptFlag D Var} {text : CString} {rest : List CString}
      (found : findFlag conf.flags flag.name = some flag) (named : flag.name.bytes ≠ [])
      (integer : flag.type = .int) (noDash : ¬ StartsDash text) (noInt : atoi text = none) :
      TooLarge conf (dashed flag.name :: text :: rest)

/-- How the parser stops in front of these arguments. -/
inductive Stops (conf : OptConfig D Var) (words : List CString) : Stop → Prop where
  | mistake {err : Bytes} (mistake : Mistake conf words err) : Stops conf words (exits conf err)
  | tooLarge (tooLarge : TooLarge conf words) : Stops conf words .undefined

theorem stops_exit_iff {conf : OptConfig D Var} {words : List CString} {err out : Bytes} :
    Stops conf words (.exit err out) ↔ out = optConfigPrintUsage conf ∧ Mistake conf words err := by
  constructor
  · rintro ⟨mistake⟩
    exact ⟨rfl, mistake⟩
  · rintro ⟨rfl, mistake⟩
    exact .mistake mistake

theorem stops_undefined_iff {conf : OptConfig D Var} {words : List CString} :
    Stops conf words .undefined ↔ TooLarge conf words := by
  constructor
  · rintro (_ | tooLarge)
    exact tooLarge
  · exact .tooLarge

theorem not_stops_assertion {conf : OptConfig D Var} {words : List CString} :
    ¬ Stops conf words .assertion := by
  rintro ⟨⟩

/-- What stands in front of the arguments. -/
def front (conf : OptConfig D Var) : List CString → Front (Given D Var) Stop
  | [] => .ends
  | arg :: rest =>
      if nonFlag arg then .ends
      else
        match findFlag conf.flags (chomp arg) with
        | none => .wrong (exits conf (unrecognized (chomp arg)))
        | some flag =>
            if flag.type = .bool then .item ⟨flag, none, .bool true⟩
            else
              match expectNextArg conf rest.head? (requires flag.name (kind flag.type)) with
              | .error stop => .wrong stop
              | .ok text =>
                  match argument flag.type (some text) with
                  | none => .wrong .undefined
                  | some value => .item ⟨flag, some text, value⟩

/-! ## Words -/

theorem chomp_dashed (name : CString) : chomp (dashed name) = name := cstr_of_bytes name

theorem nonFlag_dashed {name : CString} (named : name.bytes ≠ []) :
    nonFlag (dashed name) = false := by
  have long : ¬ name.bytes.length + 2 < 3 := by
    have some_ := List.length_pos_iff.2 named
    omega
  simp [nonFlag, dashed, long]

/-- An argument that is a flag is two dashes and a name. -/
theorem dashed_chomp {arg : CString} (isFlag : nonFlag arg = false) :
    dashed (chomp arg) = arg ∧ (chomp arg).bytes ≠ [] := by
  obtain ⟨bytes, nulFree⟩ := arg
  match bytes, nulFree, isFlag with
  | [], _, isFlag => simp [nonFlag] at isFlag
  | [_], _, isFlag => simp [nonFlag] at isFlag
  | [_, _], _, isFlag => simp [nonFlag] at isFlag
  | a :: b :: c :: rest, nulFree, isFlag =>
      have dashes : a = DASH ∧ b = DASH := by simpa [nonFlag] using isFlag
      obtain ⟨rfl, rfl⟩ := dashes
      have free : (0 : UInt8) ∉ c :: rest := fun member =>
        nulFree (List.mem_cons_of_mem _ (List.mem_cons_of_mem _ member))
      have chomped : (chomp ⟨DASH :: DASH :: c :: rest, nulFree⟩).bytes = c :: rest :=
        cstr_bytes_of_nulFree free
      refine ⟨CString.ext ?_, by simp [chomped]⟩
      simp [dashed, chomped]

theorem findFlag_name {flags : List (OptFlag D Var)} {cur : CString} {flag : OptFlag D Var}
    (found : findFlag flags cur = some flag) : flag.name = cur := by
  have same := List.find?_some found
  exact Eq.symm (of_decide_eq_true same)

theorem findFlag_eq_none {flags : List (OptFlag D Var)} {cur : CString}
    (none_ : ∀ flag ∈ flags, flag.name ≠ cur) : findFlag flags cur = none :=
  List.find?_eq_none.2 fun flag member => by simpa using Ne.symm (none_ flag member)

theorem expectNextArg_ok_iff {conf : OptConfig D Var} {next : Option CString} {msg : Bytes}
    {text : CString} :
    expectNextArg conf next msg = .ok text ↔ next = some text ∧ ¬ StartsDash text := by
  cases next with
  | none => simp [expectNextArg]
  | some other =>
      by_cases dash : other.bytes[0]? = some DASH
      · simp only [expectNextArg, dash, and_self, if_true, Option.some.injEq]
        constructor
        · intro impossible
          cases impossible
        · rintro ⟨rfl, noDash⟩
          exact absurd dash noDash
      · simp only [expectNextArg, dash, and_self, if_false, Except.ok.injEq, Option.some.injEq]
        constructor
        · rintro rfl
          exact ⟨rfl, dash⟩
        · exact And.left

theorem expectNextArg_error_iff {conf : OptConfig D Var} {next : Option CString} {msg : Bytes}
    {stop : Stop} : expectNextArg conf next msg = .error stop ↔
      (∀ text ∈ next, StartsDash text) ∧ stop = exits conf msg := by
  cases next with
  | none => simp [expectNextArg, eq_comm]
  | some other =>
      by_cases dash : StartsDash other
      · have same : other.bytes[0]? = some DASH := dash
        simp [expectNextArg, same, dash, eq_comm]
      · have other_ : ¬ other.bytes[0]? = some DASH := dash
        simp [expectNextArg, other_, dash]

/-! ## Flags as items -/

theorem argument_none {type : OptFlagType} (valued : type ≠ .bool) :
    argument (D := D) type none = none := by
  cases type with
  | bool => exact absurd rfl valued
  | int => rfl
  | double => rfl
  | string => rfl

/-- Only an integer may be none. -/
theorem argument_some_eq_none {type : OptFlagType} {text : CString} (valued : type ≠ .bool) :
    argument (D := D) type (some text) = none ↔ type = .int ∧ atoi text = none := by
  cases type with
  | bool => exact absurd rfl valued
  | int => simp [argument]
  | double => simp [argument]
  | string => simp [argument]

theorem front_item {conf : OptConfig D Var} {given : Given D Var} (of : given.Of conf.flags)
    (rest : List CString) : front conf (given.spell ++ rest) = .item given := by
  obtain ⟨flag, text, value⟩ := given
  obtain ⟨found, named, noDash, reads⟩ := of
  dsimp only at found named noDash reads
  show front conf (dashed flag.name :: (text.toList ++ rest)) = _
  rw [front, if_neg (by simp [nonFlag_dashed named]), chomp_dashed, found]
  dsimp only
  by_cases switch : flag.type = .bool
  · rw [if_pos switch]
    rw [switch] at reads
    cases text with
    | none =>
        obtain rfl := Option.some.inj reads
        rfl
    | some text => cases reads
  · rw [if_neg switch]
    cases text with
    | none =>
        rw [argument_none switch] at reads
        cases reads
    | some text =>
        rw [Option.toList_some, List.singleton_append, List.head?_cons,
          expectNextArg_ok_iff.2 ⟨rfl, noDash text rfl⟩]
        dsimp only
        rw [reads]

theorem front_over (conf : OptConfig D Var) {words : List CString} (ended : Over words) :
    front conf words = .ends := by
  cases words with
  | nil => rfl
  | cons arg rest => rw [front, if_pos (ended arg rfl)]

theorem front_mistake {conf : OptConfig D Var} {words : List CString} {err : Bytes}
    (mistake : Mistake conf words err) : front conf words = .wrong (exits conf err) := by
  cases mistake with
  | @unknown arg rest isFlag none_ =>
      rw [front, isFlag, if_neg Bool.false_ne_true, findFlag_eq_none none_]
  | missing found named valued none_ =>
      rw [front, nonFlag_dashed named, if_neg Bool.false_ne_true, chomp_dashed, found]
      dsimp only
      rw [if_neg valued, expectNextArg_error_iff.2 ⟨none_, rfl⟩]

theorem front_tooLarge {conf : OptConfig D Var} {words : List CString}
    (tooLarge : TooLarge conf words) : front conf words = .wrong .undefined := by
  obtain ⟨found, named, integer, noDash, noInt⟩ := tooLarge
  rename_i flag text rest
  have valued : flag.type ≠ .bool := by
    rw [integer]
    decide
  rw [front, nonFlag_dashed named, if_neg Bool.false_ne_true, chomp_dashed, found]
  dsimp only
  rw [if_neg valued, List.head?_cons, expectNextArg_ok_iff.2 ⟨rfl, noDash⟩]
  dsimp only
  rw [(argument_some_eq_none valued).2 ⟨integer, noInt⟩]

theorem front_stops {conf : OptConfig D Var} {words : List CString} {stop : Stop}
    (stops : Stops conf words stop) : front conf words = .wrong stop := by
  cases stops with
  | mistake mistake => exact front_mistake mistake
  | tooLarge tooLarge => exact front_tooLarge tooLarge

/-- There is nothing else that could stand in front. -/
theorem front_cases (conf : OptConfig D Var) (words : List CString) :
    Over words ∨ (∃ given : Given D Var, given.Of conf.flags ∧ given.spell <+: words) ∨
      ∃ stop, Stops conf words stop := by
  cases words with
  | nil => exact .inl (by simp [Over])
  | cons arg rest =>
      cases isFlag : nonFlag arg with
      | true => exact .inl (by simpa [Over] using isFlag)
      | false =>
          obtain ⟨spelled, named⟩ := dashed_chomp isFlag
          cases found : findFlag conf.flags (chomp arg) with
          | none =>
              refine .inr (.inr ⟨_, .mistake (.unknown isFlag fun flag member same => ?_)⟩)
              have other := List.find?_eq_none.1 found flag member
              simp [same] at other
          | some flag =>
              rw [← findFlag_name found] at spelled named found
              rw [← spelled]
              by_cases switch : flag.type = .bool
              · have reads : argument flag.type none = some (Value.bool (D := D) true) := by
                  rw [switch]
                  rfl
                exact .inr (.inl ⟨⟨flag, none, .bool true⟩,
                  ⟨found, named, by simp, reads⟩, rest, rfl⟩)
              · by_cases missing : ∀ text ∈ rest.head?, StartsDash text
                · exact .inr (.inr ⟨_, .mistake (.missing found named switch missing)⟩)
                · obtain ⟨text, later, rfl, noDash⟩ :
                      ∃ text later, rest = text :: later ∧ ¬ StartsDash text := by
                    cases rest with
                    | nil => exact absurd (by simp) missing
                    | cons text later => exact ⟨text, later, rfl, by simpa using missing⟩
                  cases reads : argument (D := D) flag.type (some text) with
                  | none =>
                      obtain ⟨integer, noInt⟩ := (argument_some_eq_none switch).1 reads
                      exact .inr (.inr ⟨_, .tooLarge (.integer found named integer noDash noInt)⟩)
                  | some value =>
                      exact .inr (.inl ⟨⟨flag, some text, value⟩,
                        ⟨found, named, by simpa using noDash, reads⟩, later, rfl⟩)

/-- The flags of a configuration, as a language. -/
def flagLanguage (conf : OptConfig D Var) : Language CString (Given D Var) Stop where
  front := front conf
  spell := Given.spell
  IsItem := fun given => given.Of conf.flags
  front_iff := by
    intro words given
    constructor
    · intro begins
      obtain ended | ⟨other, of, rest, rfl⟩ | ⟨stop, stops⟩ := front_cases conf words
      · rw [front_over conf ended] at begins
        cases begins
      · rw [front_item of] at begins
        obtain rfl := Front.item.inj begins
        exact ⟨of, rest, rfl⟩
      · rw [front_stops stops] at begins
        cases begins
    · rintro ⟨of, rest, rfl⟩
      exact front_item of rest
  spell_ne := fun given => List.cons_ne_nil _ _

theorem front_ends_iff {conf : OptConfig D Var} {words : List CString} :
    front conf words = .ends ↔ Over words := by
  refine ⟨fun begins => ?_, front_over conf⟩
  obtain ended | ⟨given, of, rest, rfl⟩ | ⟨stop, stops⟩ := front_cases conf words
  · exact ended
  · rw [front_item of] at begins
    cases begins
  · rw [front_stops stops] at begins
    cases begins

theorem front_wrong_iff {conf : OptConfig D Var} {words : List CString} {stop : Stop} :
    front conf words = .wrong stop ↔ Stops conf words stop := by
  refine ⟨fun begins => ?_, front_stops⟩
  obtain ended | ⟨given, of, rest, rfl⟩ | ⟨stop', stops⟩ := front_cases conf words
  · rw [front_over conf ended] at begins
    cases begins
  · rw [front_item of] at begins
    cases begins
  · rw [front_stops stops] at begins
    obtain rfl := Front.wrong.inj begins
    exact stops

end CommandLine

end Feedserver.Options
