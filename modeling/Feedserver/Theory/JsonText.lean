/-
# Theory.JsonText — JSON values, the grammar over tokens, and a reader that decides it

`ReadsValue ts v rest`: a value `v` stands at the front of the tokens `ts`, and `rest`
follows it. The rules are those of RFC 8259, one constructor each, and each is fixed by
the tokens in front, so a derivation is inverted by `cases`. `Denotes text v` is the whole
text: its tokens are one value and nothing more.

`Parser` is any function that finds exactly this. What a text's value is does not depend
on which one (`Parser.parse_of_denotes`), so a parser whose code
is elsewhere is a `Parser` argument. `reader` is one: recursive descent, `readValue`, with
enough fuel for every text (`readValue_complete`) and nothing accepted beyond the grammar
(`read_sound`).
-/
import Feedserver.Theory.JsonLexer

namespace Feedserver.Theory.Json

set_option autoImplicit false

inductive Value where
  | object (members : List (Bytes × Value))
  | array (values : List Value)
  | integer (literal : Bytes)
  | double (literal : Bytes)
  | string (s : Bytes)
  | boolean (b : Bool)
  | null

/-! ## The grammar -/

mutual

/-- A value stands in front of the tokens, and the rest follows it. -/
inductive ReadsValue : List Token → Value → List Token → Prop where
  | string {s : Bytes} {rest : List Token} : ReadsValue (.string s :: rest) (.string s) rest
  | integer {literal : Bytes} {rest : List Token} :
      ReadsValue (.integer literal :: rest) (.integer literal) rest
  | double {literal : Bytes} {rest : List Token} :
      ReadsValue (.double literal :: rest) (.double literal) rest
  | boolean {b : Bool} {rest : List Token} : ReadsValue (.boolean b :: rest) (.boolean b) rest
  | null {rest : List Token} : ReadsValue (.null :: rest) .null rest
  | emptyObject {rest : List Token} :
      ReadsValue (.beginObject :: .endObject :: rest) (.object []) rest
  | object {ts rest : List Token} {members : List (Bytes × Value)}
      (inner : ReadsMembers ts members rest) :
      ReadsValue (.beginObject :: ts) (.object members) rest
  | emptyArray {rest : List Token} :
      ReadsValue (.beginArray :: .endArray :: rest) (.array []) rest
  | array {ts rest : List Token} {values : List Value} (inner : ReadsElements ts values rest) :
      ReadsValue (.beginArray :: ts) (.array values) rest

/-- At least one member, up to and with the brace that closes the object. -/
inductive ReadsMembers : List Token → List (Bytes × Value) → List Token → Prop where
  | last {n : Bytes} {v : Value} {ts rest : List Token}
      (value : ReadsValue ts v (.endObject :: rest)) :
      ReadsMembers (.string n :: .nameSeparator :: ts) [(n, v)] rest
  | more {n : Bytes} {v : Value} {members : List (Bytes × Value)} {ts ts' rest : List Token}
      (value : ReadsValue ts v (.valueSeparator :: ts'))
      (tail : ReadsMembers ts' members rest) :
      ReadsMembers (.string n :: .nameSeparator :: ts) ((n, v) :: members) rest

/-- At least one element, up to and with the bracket that closes the array. -/
inductive ReadsElements : List Token → List Value → List Token → Prop where
  | last {v : Value} {ts rest : List Token} (value : ReadsValue ts v (.endArray :: rest)) :
      ReadsElements ts [v] rest
  | more {v : Value} {values : List Value} {ts ts' rest : List Token}
      (value : ReadsValue ts v (.valueSeparator :: ts')) (tail : ReadsElements ts' values rest) :
      ReadsElements ts (v :: values) rest

end

/-- A brace with a name behind it opens an object whose first member has that name. -/
theorem ReadsValue.firstMember {n : Bytes} {ts rest : List Token} {v : Value}
    (reads : ReadsValue (.beginObject :: .string n :: .nameSeparator :: ts) v rest) :
    ∃ first members after, v = .object ((n, first) :: members) ∧ ReadsValue ts first after := by
  cases reads with
  | object inner =>
      cases inner with
      | last value => exact ⟨_, [], _, rfl, value⟩
      | more value tail => exact ⟨_, _, _, rfl, value⟩

mutual

/-- What follows a value are the last of the tokens. -/
theorem ReadsValue.suffix {ts rest : List Token} {v : Value} :
    ReadsValue ts v rest → rest <:+ ts
  | .string | .integer | .double | .boolean | .null => List.suffix_cons _ _
  | .emptyObject | .emptyArray => (List.suffix_cons _ _).trans (List.suffix_cons _ _)
  | .object inner => inner.suffix.trans (List.suffix_cons _ _)
  | .array inner => inner.suffix.trans (List.suffix_cons _ _)

theorem ReadsMembers.suffix {ts rest : List Token} {ms : List (Bytes × Value)} :
    ReadsMembers ts ms rest → rest <:+ ts
  | .last value =>
      ((List.suffix_cons _ _).trans value.suffix).trans
        ((List.suffix_cons _ _).trans (List.suffix_cons _ _))
  | .more value tail =>
      (tail.suffix.trans ((List.suffix_cons _ _).trans value.suffix)).trans
        ((List.suffix_cons _ _).trans (List.suffix_cons _ _))

theorem ReadsElements.suffix {ts rest : List Token} {vs : List Value} :
    ReadsElements ts vs rest → rest <:+ ts
  | .last value => (List.suffix_cons _ _).trans value.suffix
  | .more value tail => tail.suffix.trans ((List.suffix_cons _ _).trans value.suffix)

end

/-- Every element of an array stands somewhere in its tokens. -/
theorem ReadsElements.element {ts rest : List Token} {vs : List Value} {v : Value} :
    ReadsElements ts vs rest → v ∈ vs → ∃ ts' rest', ts' <:+ ts ∧ ReadsValue ts' v rest'
  | .last value, member => by
      obtain rfl := List.mem_singleton.1 member
      exact ⟨ts, _, List.suffix_rfl, value⟩
  | .more value tail, member => by
      rcases List.mem_cons.1 member with rfl | member
      · exact ⟨ts, _, List.suffix_rfl, value⟩
      · obtain ⟨ts', rest', inside, reads⟩ := tail.element member
        exact ⟨ts', rest', inside.trans ((List.suffix_cons _ _).trans value.suffix), reads⟩

/-- The text is the JSON text of the value. -/
def Denotes (text : Bytes) (v : Value) : Prop :=
  ∃ ts, lex text = some ts ∧ ReadsValue ts v []

theorem Denotes.nulFree {text : Bytes} {v : Value} (denotes : Denotes text v) : 0 ∉ text := by
  obtain ⟨ts, lexed, -⟩ := denotes
  unfold lex at lexed
  split at lexed
  · cases lexed
  · rename_i ran
    exact nulFree_of_run ran

/-- A JSON parser: the value of every JSON text, and nothing for any other text. -/
structure Parser where
  parse : Bytes → Option Value
  parse_eq_some_iff : ∀ (text : Bytes) (v : Value), parse text = some v ↔ Denotes text v

theorem Parser.parse_of_denotes (json : Parser) {text : Bytes} {v : Value}
    (denotes : Denotes text v) : json.parse text = some v :=
  (json.parse_eq_some_iff text v).2 denotes

theorem Parser.parse_nil (json : Parser) : json.parse [] = none := by
  cases parsed : json.parse [] with
  | none => rfl
  | some v =>
      obtain ⟨ts, lexed, reads⟩ := (json.parse_eq_some_iff [] v).1 parsed
      obtain rfl : [] = ts := Option.some.inj lexed
      cases reads

/-! ## A reader -/

mutual

def readValue : Nat → List Token → Option (Value × List Token)
  | 0, _ => none
  | fuel + 1, ts =>
      match ts with
      | .string s :: rest => some (.string s, rest)
      | .integer literal :: rest => some (.integer literal, rest)
      | .double literal :: rest => some (.double literal, rest)
      | .boolean b :: rest => some (.boolean b, rest)
      | .null :: rest => some (.null, rest)
      | .beginObject :: .endObject :: rest => some (.object [], rest)
      | .beginObject :: ts => (readMembers fuel ts).map fun (members, rest) => (.object members, rest)
      | .beginArray :: .endArray :: rest => some (.array [], rest)
      | .beginArray :: ts => (readElements fuel ts).map fun (values, rest) => (.array values, rest)
      | _ => none

def readMembers : Nat → List Token → Option (List (Bytes × Value) × List Token)
  | 0, _ => none
  | fuel + 1, ts =>
      match ts with
      | .string n :: .nameSeparator :: ts =>
          match readValue fuel ts with
          | some (v, .endObject :: rest) => some ([(n, v)], rest)
          | some (v, .valueSeparator :: ts') =>
              (readMembers fuel ts').map fun (members, rest) => ((n, v) :: members, rest)
          | _ => none
      | _ => none

def readElements : Nat → List Token → Option (List Value × List Token)
  | 0, _ => none
  | fuel + 1, ts =>
      match readValue fuel ts with
      | some (v, .endArray :: rest) => some ([v], rest)
      | some (v, .valueSeparator :: ts') =>
          (readElements fuel ts').map fun (values, rest) => (v :: values, rest)
      | _ => none

end

/-- The value of a JSON text. -/
def read (text : Bytes) : Option Value :=
  match lex text with
  | none => none
  | some ts =>
      match readValue (2 * ts.length) ts with
      | some (v, []) => some v
      | _ => none

/-! ### Nothing beyond the grammar -/

/-- What the three readers return, at one amount of fuel, is derivable. -/
def SoundAt (fuel : Nat) : Prop :=
  (∀ ts v rest, readValue fuel ts = some (v, rest) → ReadsValue ts v rest) ∧
    (∀ ts members rest, readMembers fuel ts = some (members, rest) →
      ReadsMembers ts members rest) ∧
    ∀ ts values rest, readElements fuel ts = some (values, rest) → ReadsElements ts values rest

theorem readValue_sound_step {fuel : Nat} (sound : SoundAt fuel) {ts rest : List Token} {v : Value}
    (found : readValue (fuel + 1) ts = some (v, rest)) : ReadsValue ts v rest := by
  obtain ⟨-, members, elements⟩ := sound
  simp only [readValue] at found
  split at found
  all_goals try (cases found; constructor)
  · simp only [Option.map_eq_some_iff, Prod.exists] at found
    obtain ⟨ms, tail, inner, same⟩ := found
    cases same
    exact .object (members _ _ _ inner)
  · simp only [Option.map_eq_some_iff, Prod.exists] at found
    obtain ⟨vs, tail, inner, same⟩ := found
    cases same
    exact .array (elements _ _ _ inner)
  · cases found

theorem readMembers_sound_step {fuel : Nat} (sound : SoundAt fuel) {ts rest : List Token}
    {ms : List (Bytes × Value)} (found : readMembers (fuel + 1) ts = some (ms, rest)) :
    ReadsMembers ts ms rest := by
  obtain ⟨value, members, -⟩ := sound
  simp only [readMembers] at found
  split at found
  · split at found
    · rename_i inner
      cases found
      exact .last (value _ _ _ inner)
    · rename_i inner
      simp only [Option.map_eq_some_iff, Prod.exists] at found
      obtain ⟨tail, after, innerTail, same⟩ := found
      cases same
      exact .more (value _ _ _ inner) (members _ _ _ innerTail)
    · cases found
  · cases found

theorem readElements_sound_step {fuel : Nat} (sound : SoundAt fuel) {ts rest : List Token}
    {vs : List Value} (found : readElements (fuel + 1) ts = some (vs, rest)) :
    ReadsElements ts vs rest := by
  obtain ⟨value, -, elements⟩ := sound
  simp only [readElements] at found
  split at found
  · rename_i inner
    cases found
    exact .last (value _ _ _ inner)
  · rename_i inner
    simp only [Option.map_eq_some_iff, Prod.exists] at found
    obtain ⟨tail, after, innerTail, same⟩ := found
    cases same
    exact .more (value _ _ _ inner) (elements _ _ _ innerTail)
  · cases found

theorem sound_at (fuel : Nat) : SoundAt fuel := by
  induction fuel with
  | zero => exact ⟨by simp [readValue], by simp [readMembers], by simp [readElements]⟩
  | succ fuel ih =>
      exact ⟨fun _ _ _ => readValue_sound_step ih, fun _ _ _ => readMembers_sound_step ih,
        fun _ _ _ => readElements_sound_step ih⟩

theorem read_sound {text : Bytes} {v : Value} (found : read text = some v) : Denotes text v := by
  unfold read at found
  split at found
  · cases found
  · rename_i ts lexed
    split at found
    · rename_i inner
      cases found
      exact ⟨ts, lexed, (sound_at _).1 _ _ _ inner⟩
    · cases found

/-! ### Everything in the grammar -/

mutual

theorem ReadsValue.shorter {ts rest : List Token} {v : Value} :
    ReadsValue ts v rest → rest.length < ts.length
  | .string | .integer | .double | .boolean | .null => by simp
  | .emptyObject | .emptyArray => by simp only [List.length_cons]; omega
  | .object inner => by have := inner.shorter; simp; omega
  | .array inner => by have := inner.shorter; simp; omega

theorem ReadsMembers.shorter {ts rest : List Token} {ms : List (Bytes × Value)} :
    ReadsMembers ts ms rest → rest.length < ts.length
  | .last value => by have := value.shorter; simp at this ⊢; omega
  | .more value tail => by
      have := value.shorter
      have := tail.shorter
      simp at *; omega

theorem ReadsElements.shorter {ts rest : List Token} {vs : List Value} :
    ReadsElements ts vs rest → rest.length < ts.length
  | .last value => by have := value.shorter; simp at this ⊢; omega
  | .more value tail => by
      have := value.shorter
      have := tail.shorter
      simp at *; omega

end

theorem ReadsValue.ne_endArray {ts rest tail : List Token} {v : Value}
    (value : ReadsValue ts v rest) : ts ≠ .endArray :: tail := by
  cases value <;> simp

theorem ReadsElements.ne_endArray {ts rest tail : List Token} {vs : List Value}
    (elements : ReadsElements ts vs rest) : ts ≠ .endArray :: tail := by
  cases elements with
  | last value => exact value.ne_endArray
  | more value _ => exact value.ne_endArray

mutual

theorem readValue_complete {ts rest : List Token} {v : Value} :
    ReadsValue ts v rest → ∀ (fuel : Nat), 2 * ts.length ≤ fuel →
      readValue fuel ts = some (v, rest)
  | derivation, 0, enough => by
      have := derivation.shorter
      omega
  | .string, _ + 1, _ | .integer, _ + 1, _ | .double, _ + 1, _ | .boolean, _ + 1, _
  | .null, _ + 1, _ | .emptyObject, _ + 1, _ | .emptyArray, _ + 1, _ => by simp [readValue]
  | .object inner, fuel + 1, enough => by
      have found := readMembers_complete inner fuel (by simp at enough; omega)
      cases inner <;> simp [readValue, found]
  | .array inner, fuel + 1, enough => by
      have found := readElements_complete inner fuel (by simp at enough; omega)
      simp only [readValue]
      split <;> simp_all [inner.ne_endArray]

theorem readMembers_complete {ts rest : List Token} {ms : List (Bytes × Value)} :
    ReadsMembers ts ms rest → ∀ (fuel : Nat), 2 * ts.length + 1 ≤ fuel →
      readMembers fuel ts = some (ms, rest)
  | .last value, fuel + 1, enough => by
      have found := readValue_complete value fuel (by simp at enough; omega)
      simp [readMembers, found]
  | .more value tail, fuel + 1, enough => by
      have found := readValue_complete value fuel (by simp at enough; omega)
      have := value.shorter
      have foundTail := readMembers_complete tail fuel (by simp at enough this; omega)
      simp [readMembers, found, foundTail]

theorem readElements_complete {ts rest : List Token} {vs : List Value} :
    ReadsElements ts vs rest → ∀ (fuel : Nat), 2 * ts.length + 1 ≤ fuel →
      readElements fuel ts = some (vs, rest)
  | .last value, fuel + 1, enough => by
      have found := readValue_complete value fuel (by omega)
      simp [readElements, found]
  | .more value tail, fuel + 1, enough => by
      have found := readValue_complete value fuel (by omega)
      have := value.shorter
      have foundTail := readElements_complete tail fuel (by simp at enough this; omega)
      simp [readElements, found, foundTail]

end

theorem read_complete {text : Bytes} {v : Value} (denotes : Denotes text v) :
    read text = some v := by
  obtain ⟨ts, lexed, value⟩ := denotes
  simp [read, lexed, readValue_complete value _ le_rfl]

/-- The grammar has a parser. -/
def reader : Parser where
  parse := read
  parse_eq_some_iff _ _ := ⟨read_sound, read_complete⟩

end Feedserver.Theory.Json
