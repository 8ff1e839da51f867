/-
# Options.CommandLine — the command lines that opt_config_parse accepts

* `flagLoop`: `parseLoop` is a loop over the language of the flags, with what they leave in the
  configuration (`marked`) and in the variables (`stored`).
* `Configured`: `opt_config_init`, and then any flags with variables of their own.
* `parse_ok_iff`: which command lines are accepted, and what the variables hold then.
* `parse_refused_iff`: which are refused, and what is said about them; and which are undefined.
-/
import Feedserver.Options.Flags
import Mathlib.Data.List.Nodup

namespace Feedserver.Options

open Feedserver.Theory
open Feedserver.Source
open Scanning (Language Loop)

set_option autoImplicit false

/-! ## The loop -/

section Loop

variable {D : Doubles} {Var : Type} [DecidableEq Var]

/-- The flag, if it is among the items, has been parsed. -/
def mark (items : List (Given D Var)) (flag : OptFlag D Var) : OptFlag D Var :=
  { flag with parsed := flag.parsed || items.any fun given => given.flag.storage = flag.storage }

/-- The configuration behind these flags. -/
def marked (conf : OptConfig D Var) (items : List (Given D Var)) : OptConfig D Var :=
  { conf with flags := conf.flags.map (mark items) }

/-- The variables behind these flags. -/
def stored (memory : Memory D Var) (items : List (Given D Var)) : Memory D Var :=
  items.foldl (fun memory given => store memory given.flag.storage given.value) memory

/-- Every flag has a variable of its own. -/
def Apart (flags : List (OptFlag D Var)) : Prop := (flags.map OptFlag.storage).Nodup

variable {conf : OptConfig D Var} {items : List (Given D Var)} {given : Given D Var}
  {flags : List (OptFlag D Var)}

theorem exits_marked (conf : OptConfig D Var) (items : List (Given D Var)) (err : Bytes) :
    exits (marked conf items) err = exits conf err := by
  rw [exits, exits, optConfigPrintUsage, marked, List.flatMap_map]
  rfl

theorem findFlag_mark (items : List (Given D Var)) (flags : List (OptFlag D Var))
    (cur : CString) :
    findFlag (flags.map (mark items)) cur = (findFlag flags cur).map (mark items) :=
  List.find?_map

/-- It is marked where it has been found, and nowhere else. -/
theorem markParsed_mark (apart : Apart flags)
    (found : findFlag flags given.flag.name = some given.flag) :
    markParsed given.flag.name (flags.map (mark items)) = flags.map (mark (items ++ [given])) := by
  have more (flag : OptFlag D Var) : mark (items ++ [given]) flag =
      { mark items flag with
        parsed := (mark items flag).parsed || decide (given.flag.storage = flag.storage) } := by
    simp [mark, Bool.or_assoc]
  induction flags with
  | nil => rfl
  | cons flag rest ih =>
      obtain ⟨fresh, apart⟩ := List.nodup_cons.1 apart
      have other {later : OptFlag D Var} (member : later ∈ rest) : later.storage ≠ flag.storage :=
        fun same => fresh (same ▸ List.mem_map_of_mem member)
      rw [findFlag, List.find?_cons] at found
      by_cases named : given.flag.name = flag.name
      · rw [decide_eq_true named] at found
        have same : flag = given.flag := Option.some.inj found
        have rest_ : rest.map (mark items) = rest.map (mark (items ++ [given])) := by
          apply List.map_congr_left
          intro later member
          have apart_ : given.flag.storage ≠ later.storage := by
            rw [← same]
            exact Ne.symm (other member)
          rw [more, decide_eq_false apart_, Bool.or_false]
        rw [List.map_cons, List.map_cons, markParsed,
          if_pos (show _ = (mark items flag).name from named), rest_, more, ← same,
          decide_eq_true rfl, Bool.or_true]
      · rw [decide_eq_false named] at found
        have apart_ : given.flag.storage ≠ flag.storage := other (List.mem_of_find?_eq_some found)
        rw [List.map_cons, List.map_cons, markParsed,
          if_neg (show ¬ _ = (mark items flag).name from named), ih apart found, more,
          decide_eq_false apart_, Bool.or_false]

theorem parseFlag_item (apart : Apart conf.flags) (of : given.Of conf.flags)
    (items : List (Given D Var)) (memory : Memory D Var) (rest : List CString) :
    parseFlag (marked conf items) memory given.flag.name (given.text.toList ++ rest).head? =
      .ok (marked conf (items ++ [given]), store memory given.flag.storage given.value,
        given.text.toList.length + 1) := by
  have found : findFlag (marked conf items).flags given.flag.name =
      some (mark items given.flag) := by
    rw [marked, findFlag_mark, of.found]
    rfl
  have marks : markParsed given.flag.name (conf.flags.map (mark items)) =
      conf.flags.map (mark (items ++ [given])) := markParsed_mark apart of.found
  obtain ⟨flag, text, value⟩ := given
  obtain ⟨-, -, noDash, reads⟩ := of
  dsimp only at found marks noDash reads ⊢
  have marks : ({ marked conf items with flags := markParsed flag.name (marked conf items).flags } :
      OptConfig D Var) = marked conf (items ++ [⟨flag, text, value⟩]) :=
    congrArg (fun flags => { conf with flags }) marks
  have next {text' : CString} (taken : text = some text') (msg : Bytes) :
      expectNextArg (marked conf items) (text.toList ++ rest).head? msg = .ok text' := by
    subst taken
    exact expectNextArg_ok_iff.2 ⟨rfl, noDash text' rfl⟩
  have type : (mark items flag).type = flag.type := rfl
  rw [parseFlag, found]
  dsimp only
  rw [type, marks]
  cases text with
  | none =>
      cases switch : flag.type with
      | bool =>
          rw [switch] at reads
          obtain rfl := Option.some.inj reads
          rfl
      | int => simp [switch, argument] at reads
      | double => simp [switch, argument] at reads
      | string => simp [switch, argument] at reads
  | some text =>
      cases valued : flag.type with
      | bool => simp [valued, argument] at reads
      | int =>
          rw [valued] at reads
          obtain ⟨i, read, rfl⟩ := Option.map_eq_some_iff.1 reads
          dsimp only
          rw [next rfl]
          dsimp only [Bind.bind, Except.bind]
          rw [read]
          rfl
      | double =>
          rw [valued] at reads
          obtain rfl := Option.some.inj reads
          dsimp only
          rw [next rfl]
          rfl
      | string =>
          rw [valued] at reads
          obtain rfl := Option.some.inj reads
          dsimp only
          rw [next rfl]
          rfl

theorem parseLoop_item (apart : Apart conf.flags) (of : given.Of conf.flags)
    (items : List (Given D Var)) (memory : Memory D Var) (rest : List CString) :
    parseLoop (marked conf items) memory (given.spell ++ rest) 0 =
      parseLoop (marked conf (items ++ [given])) (store memory given.flag.storage given.value)
        rest 0 := by
  show parseLoop _ _ (dashed given.flag.name :: (given.text.toList ++ rest)) 0 = _
  rw [parseLoop, nonFlag_dashed of.named, if_neg Bool.false_ne_true, chomp_dashed,
    parseFlag_item apart of]
  cases given.text with
  | none => rfl
  | some text => rfl

theorem parseLoop_over {words : List CString} (ended : Over words) (conf : OptConfig D Var)
    (memory : Memory D Var) : parseLoop conf memory words 0 = .ok (conf, memory, words) := by
  cases words with
  | nil => rfl
  | cons arg rest => rw [parseLoop, if_pos (ended arg rfl)]

theorem parseLoop_mistake {words : List CString} {err : Bytes} (mistake : Mistake conf words err)
    (items : List (Given D Var)) (memory : Memory D Var) :
    parseLoop (marked conf items) memory words 0 = .error (exits conf err) := by
  cases mistake with
  | @unknown arg rest isFlag none_ =>
      have absent : findFlag (marked conf items).flags (chomp arg) = none := by
        rw [marked, findFlag_mark, findFlag_eq_none none_]
        rfl
      rw [parseLoop, isFlag, if_neg Bool.false_ne_true, parseFlag, absent]
      exact congrArg Except.error (exits_marked conf items _)
  | @missing flag rest found named valued none_ =>
      have found_ : findFlag (marked conf items).flags flag.name = some (mark items flag) := by
        rw [marked, findFlag_mark, found]
        rfl
      have type : (mark items flag).type = flag.type := rfl
      have stops (what : String) : expectNextArg (marked conf items) rest.head?
          (requires (mark items flag).name what) =
            .error (exits conf (requires flag.name what)) := by
        rw [← exits_marked conf items]
        exact expectNextArg_error_iff.2 ⟨none_, rfl⟩
      rw [parseLoop, nonFlag_dashed named, if_neg Bool.false_ne_true, chomp_dashed, parseFlag,
        found_]
      dsimp only
      rw [type, stops, stops, stops]
      cases kind_ : flag.type with
      | bool => exact absurd kind_ valued
      | int => rfl
      | double => rfl
      | string => rfl

theorem parseLoop_tooLarge {words : List CString} (tooLarge : TooLarge conf words)
    (items : List (Given D Var)) (memory : Memory D Var) :
    parseLoop (marked conf items) memory words 0 = .error .undefined := by
  obtain ⟨found, named, integer, noDash, noInt⟩ := tooLarge
  rename_i flag text rest
  have found_ : findFlag (marked conf items).flags flag.name = some (mark items flag) := by
    rw [marked, findFlag_mark, found]
    rfl
  have type : (mark items flag).type = .int := integer
  have stops : parseFlag (marked conf items) memory flag.name (some text) =
      .error .undefined := by
    rw [parseFlag, found_]
    dsimp only
    rw [type, expectNextArg_ok_iff.2 ⟨rfl, noDash⟩]
    dsimp only [Bind.bind, Except.bind]
    rw [noInt]
  rw [parseLoop, nonFlag_dashed named, if_neg Bool.false_ne_true, chomp_dashed, List.head?_cons,
    stops]

theorem parseLoop_stops {words : List CString} {stop : Stop} (stops : Stops conf words stop)
    (items : List (Given D Var)) (memory : Memory D Var) :
    parseLoop (marked conf items) memory words 0 = .error stop := by
  cases stops with
  | mistake mistake => exact parseLoop_mistake mistake items memory
  | tooLarge tooLarge => exact parseLoop_tooLarge tooLarge items memory

theorem marked_nil (conf : OptConfig D Var) : marked conf [] = conf := by
  have same : (mark [] : OptFlag D Var → OptFlag D Var) = id := by
    funext flag
    rw [mark, List.any_nil, Bool.or_false]
    rfl
  rw [marked, same, List.map_id]

/-- What a round leaves. -/
def take (state : OptConfig D Var × Memory D Var) (given : Given D Var) :
    OptConfig D Var × Memory D Var :=
  ({ state.1 with flags := markParsed given.flag.name state.1.flags },
    store state.2 given.flag.storage given.value)

theorem take_marked (apart : Apart conf.flags) (of : given.Of conf.flags)
    (items : List (Given D Var)) (memory : Memory D Var) :
    take (marked conf items, memory) given =
      (marked conf (items ++ [given]), store memory given.flag.storage given.value) := by
  rw [take, marked, markParsed_mark apart of.found]
  rfl

theorem foldl_take (apart : Apart conf.flags) {items : List (Given D Var)}
    (all : ∀ given ∈ items, given.Of conf.flags) (memory : Memory D Var) :
    items.foldl take (conf, memory) = (marked conf items, stored memory items) := by
  have behind (before : List (Given D Var)) : items.foldl take (marked conf before, memory) =
      (marked conf (before ++ items), stored memory items) := by
    induction items generalizing before memory with
    | nil =>
        rw [List.append_nil]
        rfl
    | cons given rest ih =>
        obtain ⟨of, others⟩ := List.forall_mem_cons.1 all
        rw [List.foldl_cons, take_marked apart of, ih others, List.append_assoc]
        rfl
  have whole := behind []
  rwa [marked_nil, List.nil_append] at whole

/-- `parseLoop` is a loop over this language. -/
def flagLoop (conf : OptConfig D Var) (apart : Apart conf.flags) :
    Loop (flagLanguage conf) (OptConfig D Var × Memory D Var) where
  run := fun (conf, memory) words =>
    (parseLoop conf memory words 0).map fun (conf, memory, args) => ((conf, memory), args)
  take := take
  Inv := fun state => ∃ items, state.1 = marked conf items
  keeps := by
    rintro ⟨_, memory⟩ given ⟨items, rfl⟩ of
    exact ⟨items ++ [given], congrArg Prod.fst (take_marked apart of items memory)⟩
  ends := by
    rintro ⟨_, memory⟩ words - begins
    dsimp only
    rw [parseLoop_over (front_ends_iff.1 begins)]
    rfl
  wrong := by
    rintro ⟨_, memory⟩ words stop ⟨items, rfl⟩ begins
    dsimp only
    rw [parseLoop_stops (front_wrong_iff.1 begins)]
    rfl
  item := by
    rintro ⟨_, memory⟩ given rest ⟨items, rfl⟩ of
    rw [take_marked apart of]
    exact congrArg (Except.map _) (parseLoop_item apart of items memory rest)

/-- What has been read: flags of the configuration, and the arguments behind them. -/
structure Line (conf : OptConfig D Var) (words : List CString) (items : List (Given D Var))
    (rest : List CString) : Prop where
  spelled : words = items.flatMap Given.spell ++ rest
  flags : ∀ given ∈ items, given.Of conf.flags

omit [DecidableEq Var] in
/-- No command line can be read in two ways: what is left over begins with no flag that is right. -/
theorem Line.unique {words rest rest' : List CString} {items items' : List (Given D Var)}
    (line : Line conf words items rest) (line' : Line conf words items' rest')
    (ended : ∀ given, front conf rest ≠ .item given)
    (ended' : ∀ given, front conf rest' ≠ .item given) : items = items' ∧ rest = rest' :=
  Language.Scanned.unique (L := flagLanguage conf) ⟨line.spelled, line.flags, ended⟩
    ⟨line'.spelled, line'.flags, ended'⟩

theorem parseLoop_ok_iff (apart : Apart conf.flags) {memory memory' : Memory D Var}
    {conf' : OptConfig D Var} {words args : List CString} :
    parseLoop conf memory words 0 = .ok (conf', memory', args) ↔
      ∃ items, Line conf words items args ∧ Over args ∧ conf' = marked conf items ∧
        memory' = stored memory items := by
  have run : parseLoop conf memory words 0 = .ok (conf', memory', args) ↔
      (flagLoop conf apart).run (conf, memory) words = .ok ((conf', memory'), args) := by
    show _ ↔ (parseLoop conf memory words 0).map _ = _
    cases parseLoop conf memory words 0 with
    | error stop => simp [Except.map]
    | ok result => simp [Except.map, Prod.ext_iff, and_assoc]
  rw [run, (flagLoop conf apart).ok_iff ⟨[], (marked_nil conf).symm⟩]
  constructor
  · rintro ⟨items, scanned, begins, same⟩
    have all : ∀ given ∈ items, given.Of conf.flags := scanned.items
    have left : (conf', memory') = (marked conf items, stored memory items) :=
      same.trans (foldl_take apart all memory)
    rw [Prod.ext_iff] at left
    exact ⟨items, ⟨scanned.spelled, all⟩, front_ends_iff.1 begins, left⟩
  · rintro ⟨items, ⟨spelled, all⟩, ended, rfl, rfl⟩
    have begins := front_over conf ended
    exact ⟨items, ⟨spelled, all, fun given => by simp [flagLanguage, begins]⟩, begins,
      (foldl_take apart all memory).symm⟩

theorem parseLoop_error_iff (apart : Apart conf.flags) {memory : Memory D Var}
    {words : List CString} {stop : Stop} :
    parseLoop conf memory words 0 = .error stop ↔
      ∃ items rest, Line conf words items rest ∧ Stops conf rest stop := by
  have run : parseLoop conf memory words 0 = .error stop ↔
      (flagLoop conf apart).run (conf, memory) words = .error stop := by
    show _ ↔ (parseLoop conf memory words 0).map _ = _
    cases parseLoop conf memory words 0 with
    | error stop => simp [Except.map]
    | ok result => simp [Except.map]
  rw [run, (flagLoop conf apart).error_iff ⟨[], (marked_nil conf).symm⟩]
  constructor
  · rintro ⟨items, rest, scanned, begins⟩
    exact ⟨items, rest, ⟨scanned.spelled, scanned.items⟩, front_wrong_iff.1 begins⟩
  · rintro ⟨items, rest, ⟨spelled, all⟩, stops⟩
    have begins := front_stops stops
    exact ⟨items, rest, ⟨spelled, all, fun given => by simp [flagLanguage, begins]⟩, begins⟩

end Loop

/-! ## What the variables hold -/

section Settled

variable {D : Doubles} {Var : Type} [DecidableEq Var]

/-- Of the flags given for a variable the last, its default if there is none. -/
def settled (conf : OptConfig D Var) (memory : Memory D Var) (items : List (Given D Var)) :
    Memory D Var := fun v =>
  match items.reverse.find? fun given => given.flag.storage = v with
  | some given => some given.value
  | none =>
      match conf.flags.find? fun flag => flag.storage = v with
      | some flag => some flag.defval
      | none => memory v

/-- A configuration as it can be before it is parsed: the flag for help is the first. -/
structure Configured (conf : OptConfig D Var) : Prop where
  fresh : conf.parsed = false
  unparsed : ∀ flag ∈ conf.flags, flag.parsed = false
  apart : Apart conf.flags
  help : ∃ usage rest, conf.flags = ⟨false, lit "help", usage, conf.help, .bool false⟩ :: rest

theorem configured_init (help : Var) (memory : Memory D Var) :
    Configured (optConfigInit help memory).1 where
  fresh := rfl
  unparsed := by simp [optConfigInit, optFlagBool, optFlagAdd]
  apart := List.nodup_singleton help
  help := ⟨_, [], rfl⟩

omit [DecidableEq Var] in
/-- Each of the flag functions adds such a flag. -/
theorem Configured.add {conf : OptConfig D Var} (configured : Configured conf)
    {flag : OptFlag D Var} (unparsed : flag.parsed = false)
    (own : ∀ other ∈ conf.flags, other.storage ≠ flag.storage) :
    Configured (optFlagAdd conf flag) where
  fresh := configured.fresh
  unparsed := by
    intro other member
    obtain before | rfl := List.mem_append.1 member |>.imp_right List.mem_singleton.1
    · exact configured.unparsed other before
    · exact unparsed
  apart := by
    rw [Apart, optFlagAdd, List.map_append]
    refine List.nodup_append.2 ⟨configured.apart, List.nodup_singleton _, ?_⟩
    rintro storage member _ last rfl
    obtain ⟨other, inside, same⟩ := List.mem_map.1 member
    exact own other inside (same.trans (List.mem_singleton.1 last))
  help := by
    obtain ⟨usage, rest, flags⟩ := configured.help
    exact ⟨usage, rest ++ [flag], by rw [optFlagAdd, flags]; rfl⟩

variable {conf : OptConfig D Var} {items : List (Given D Var)} {memory : Memory D Var}

theorem stored_apply (memory : Memory D Var) (items : List (Given D Var)) (v : Var) :
    stored memory items v =
      match items.reverse.find? fun given => given.flag.storage = v with
      | some given => some given.value
      | none => memory v := by
  induction items generalizing memory with
  | nil => rfl
  | cons given rest ih =>
      rw [stored, List.foldl_cons]
      refine (ih _).trans ?_
      rw [List.reverse_cons, List.find?_append]
      cases rest.reverse.find? fun given => given.flag.storage = v with
      | some later => rfl
      | none =>
          by_cases here : given.flag.storage = v
          · simp [store, here]
          · simp [store, here, Ne.symm here]

theorem loadDefaults_apply {flags : List (OptFlag D Var)} (apart : Apart flags)
    (memory : Memory D Var) (v : Var) :
    loadDefaults flags memory v =
      match flags.find? fun flag => flag.storage = v with
      | some flag => if flag.parsed then memory v else some flag.defval
      | none => memory v := by
  induction flags generalizing memory with
  | nil => rfl
  | cons flag rest ih =>
      obtain ⟨fresh, apart⟩ := List.nodup_cons.1 apart
      rw [loadDefaults, List.foldl_cons]
      refine (ih apart _).trans ?_
      rw [List.find?_cons]
      by_cases here : flag.storage = v
      · have absent : rest.find? (fun flag => flag.storage = v) = none := by
          refine List.find?_eq_none.2 fun later member => ?_
          have other : later.storage ≠ v := fun same =>
            fresh (here ▸ same ▸ List.mem_map_of_mem member)
          simpa using other
        rw [absent, decide_eq_true here]
        cases parsed : flag.parsed with
        | true => simp [parsed]
        | false => simp [parsed, store, here]
      · rw [decide_eq_false here]
        have same : (if flag.parsed then memory else store memory flag.storage flag.defval) v =
            memory v := by
          cases flag.parsed with
          | true => rfl
          | false => simp [store, Ne.symm here]
        rw [same]

/-- The defaults go to the variables of the flags that are not given. -/
theorem loadDefaults_marked (configured : Configured conf) (items : List (Given D Var))
    (memory : Memory D Var) :
    loadDefaults (marked conf items).flags (stored memory items) = settled conf memory items := by
  have apart : Apart (marked conf items).flags := by
    rw [Apart, marked, List.map_map]
    exact configured.apart
  funext v
  rw [loadDefaults_apply apart, stored_apply, settled]
  have found : (marked conf items).flags.find? (fun flag => flag.storage = v) =
      (conf.flags.find? fun flag => flag.storage = v).map (mark items) := List.find?_map
  rw [found]
  cases owner : conf.flags.find? fun flag => flag.storage = v with
  | none =>
      cases items.reverse.find? fun given => given.flag.storage = v with
      | none => rfl
      | some given => rfl
  | some flag =>
      have own : flag.storage = v := by simpa using List.find?_some owner
      have parsed : (mark items flag).parsed = items.any fun given => given.flag.storage = v := by
        rw [mark, configured.unparsed flag (List.mem_of_find?_eq_some owner), Bool.false_or, own]
      have given_ : (items.reverse.find? fun given => given.flag.storage = v).isSome =
          items.any fun given => given.flag.storage = v := by
        rw [Bool.eq_iff_iff, List.find?_isSome, List.any_eq_true]
        simp
      rw [← given_] at parsed
      cases last : items.reverse.find? fun given => given.flag.storage = v with
      | none =>
          rw [last] at parsed
          simp [parsed]
          rfl
      | some given =>
          rw [last] at parsed
          simp [parsed]

/-- Help is on when it has been asked for. -/
theorem isOn_settled (configured : Configured conf)
    (all : ∀ given ∈ items, given.Of conf.flags) (memory : Memory D Var) :
    isOn (settled conf memory items) conf.help = true ↔
      ∃ given ∈ items, given.flag.name = lit "help" := by
  obtain ⟨usage, rest, flags⟩ := configured.help
  have fresh : conf.help ∉ rest.map OptFlag.storage := by
    have apart := configured.apart
    rw [flags] at apart
    exact (List.nodup_cons.1 apart).1
  have isHelp {given : Given D Var} (member : given ∈ items) : given.flag.storage = conf.help ↔
      given.flag = ⟨false, lit "help", usage, conf.help, .bool false⟩ := by
    have inside := (all given member).mem
    rw [flags] at inside
    constructor
    · intro same
      obtain here | later := List.mem_cons.1 inside
      · exact here
      · exact absurd (same ▸ List.mem_map_of_mem later) fresh
    · intro same
      rw [same]
  have named {given : Given D Var} (member : given ∈ items) : given.flag.name = lit "help" ↔
      given.flag = ⟨false, lit "help", usage, conf.help, .bool false⟩ := by
    constructor
    · intro same
      have found := (all given member).found
      rw [flags, same, findFlag, List.find?_cons, decide_eq_true rfl] at found
      exact (Option.some.inj found).symm
    · intro same
      rw [same]
  rw [isOn, settled]
  cases last : items.reverse.find? fun given => given.flag.storage = conf.help with
  | some given =>
      have member : given ∈ items := List.mem_reverse.1 (List.mem_of_find?_eq_some last)
      have flag := (isHelp member).1 (by simpa using List.find?_some last)
      have on : given.value = .bool true := by
        have reads := (all given member).reads
        rw [flag] at reads
        cases text : given.text with
        | none =>
            rw [text] at reads
            exact (Option.some.inj reads).symm
        | some text' =>
            rw [text] at reads
            cases reads
      simp only [on, true_iff]
      exact ⟨given, member, (named member).2 flag⟩
  | none =>
      have off : ∀ given ∈ items, given.flag.storage ≠ conf.help := fun given member => by
        simpa using List.find?_eq_none.1 last given (List.mem_reverse.2 member)
      have first : (conf.flags.find? fun flag => flag.storage = conf.help) =
          some ⟨false, lit "help", usage, conf.help, .bool false⟩ := by
        rw [flags, List.find?_cons, decide_eq_true rfl]
      simp only [first, Bool.false_eq_true, false_iff]
      rintro ⟨given, member, same⟩
      exact off given member ((isHelp member).2 ((named member).1 same))

/-- A flag's variable holds a value of its type: what has been given for it, or the default. -/
theorem settled_flag (apart : Apart conf.flags) (all : ∀ given ∈ items, given.Of conf.flags)
    (memory : Memory D Var) {flag : OptFlag D Var} (member : flag ∈ conf.flags) :
    ∃ value, settled conf memory items flag.storage = some value ∧ (value = flag.defval ∨
      ∃ given ∈ items, given.flag = flag ∧ given.value = value) := by
  have own {other : OptFlag D Var} (inside : other ∈ conf.flags)
      (same : other.storage = flag.storage) : other = flag :=
    List.inj_on_of_nodup_map apart inside member same
  rw [settled]
  cases last : items.reverse.find? fun given => given.flag.storage = flag.storage with
  | some given =>
      have inside : given ∈ items := List.mem_reverse.1 (List.mem_of_find?_eq_some last)
      have same : given.flag.storage = flag.storage := by simpa using List.find?_some last
      exact ⟨given.value, rfl, .inr ⟨given, inside, own (all given inside).mem same, rfl⟩⟩
  | none =>
      refine ⟨flag.defval, ?_, .inl rfl⟩
      cases first : conf.flags.find? fun other => other.storage = flag.storage with
      | none => simpa using List.find?_eq_none.1 first flag member
      | some other =>
          have same : other.storage = flag.storage := by simpa using List.find?_some first
          rw [own (List.mem_of_find?_eq_some first) same]

end Settled

/-! ## Command lines -/

/-- A configuration with one flag besides the one for help, and no double. -/
def portOnly : OptConfig ⟨Unit, fun _ => (), fun _ => lit ""⟩ Bool :=
  optFlagInt (optConfigInit false fun _ => none).1 true (lit "port") 8000 (lit "Port.")

theorem configured_portOnly : Configured portOnly :=
  (configured_init false fun _ => none).add rfl
    (by simp [optConfigInit, optFlagBool, optFlagAdd])

def givenPort : Given ⟨Unit, fun _ => (), fun _ => lit ""⟩ Bool :=
  ⟨⟨false, lit "port", lit "Port.", true, .int 8000⟩, some (lit "80"), .int 80⟩

theorem givenPort_of : givenPort.Of portOnly.flags where
  found := rfl
  named := by decide
  noDash := by
    rintro text ⟨⟩
    decide
  reads := rfl

section Accepted

variable {D : Doubles} {Var : Type} [DecidableEq Var] {conf : OptConfig D Var}
  {memory memory' : Memory D Var} {argv args : List CString}

theorem optConfigParse_of_ok (configured : Configured conf) {items : List (Given D Var)}
    (line : Line conf (argv.drop 1) items args) (ended : Over args) :
    optConfigParse conf memory argv =
      if isOn (settled conf memory items) conf.help then .error (exits conf [])
      else .ok ({ marked conf items with parsed := true }, settled conf memory items, args) := by
  have ran : parseLoop conf memory (argv.drop 1) 0 =
      .ok (marked conf items, stored memory items, args) :=
    (parseLoop_ok_iff configured.apart).2 ⟨items, line, ended, rfl, rfl⟩
  rw [optConfigParse, configured.fresh, if_neg Bool.false_ne_true, ran]
  dsimp only
  rw [loadDefaults_marked configured]
  have same : exits { marked conf items with parsed := true } [] = exits conf [] :=
    exits_marked conf items []
  rw [same]
  rfl

/-- What the parser accepts are flags and what is behind them, none of the flags for help. -/
theorem given_of_ok (configured : Configured conf) {conf' : OptConfig D Var}
    (parsed : optConfigParse conf memory argv = .ok (conf', memory', args)) :
    ∃ items, Line conf (argv.drop 1) items args ∧ Over args ∧
      (∀ given ∈ items, given.flag.name ≠ lit "help") ∧ memory' = settled conf memory items := by
  cases ran : parseLoop conf memory (argv.drop 1) 0 with
  | error stop =>
      rw [optConfigParse, configured.fresh, if_neg Bool.false_ne_true, ran] at parsed
      cases parsed
  | ok result =>
      obtain ⟨conf₁, memory₁, args₁⟩ := result
      obtain ⟨items, line, ended, -⟩ := (parseLoop_ok_iff configured.apart).1 ran
      rw [optConfigParse_of_ok configured line ended] at parsed
      by_cases help : isOn (settled conf memory items) conf.help = true
      · rw [if_pos help] at parsed
        cases parsed
      · rw [if_neg help, Except.ok.injEq] at parsed
        obtain ⟨-, rfl, rfl⟩ : _ ∧ _ ∧ _ := by simpa [Prod.ext_iff] using parsed
        refine ⟨items, line, ended, fun given member same => help ?_, rfl⟩
        exact (isOn_settled configured line.flags memory).2 ⟨given, member, same⟩

/-- **The command lines that are accepted.** They are flags of the configuration, each with an
argument behind it unless it is a switch, none of them for help; and behind them nothing, or an
argument that is no flag and whatever else. The argument begins with no dash; for a number it is
any text, read by `atoi` or `atof` (`abc` is 0), but for an integer that no `int` holds, which is
undefined. A variable then holds what the last of its flags says, its default if there is none,
and all other variables are left alone. -/
theorem parse_ok_iff (configured : Configured conf) :
    (∃ conf', optConfigParse conf memory argv = .ok (conf', memory', args)) ↔
      ∃ items, Line conf (argv.drop 1) items args ∧ Over args ∧
        (∀ given ∈ items, given.flag.name ≠ lit "help") ∧
          memory' = settled conf memory items := by
  constructor
  · rintro ⟨conf', parsed⟩
    exact given_of_ok configured parsed
  · rintro ⟨items, line, ended, none_, rfl⟩
    have off : ¬ isOn (settled conf memory items) conf.help = true := by
      rw [isOn_settled configured line.flags]
      rintro ⟨given, member, same⟩
      exact none_ given member same
    rw [optConfigParse_of_ok configured line ended, if_neg off]
    exact ⟨_, rfl⟩

/-- The port is given, and an argument is left over. -/
theorem parse_ok_port : ∃ conf', optConfigParse portOnly (fun _ => none)
    [lit "feedserver", lit "--port", lit "80", lit "left"] =
      .ok (conf', settled portOnly (fun _ => none) [givenPort], [lit "left"]) :=
  (parse_ok_iff configured_portOnly).2
    ⟨[givenPort], ⟨rfl, by simpa using givenPort_of⟩, by rintro arg ⟨⟩; rfl, by decide, rfl⟩

/-- Every other command line stops the parser: at what is wrong behind the flags that are right,
or at the end, when help has been asked for. -/
theorem optConfigParse_error_iff (configured : Configured conf) {stop : Stop} :
    optConfigParse conf memory argv = .error stop ↔
      ∃ items rest, Line conf (argv.drop 1) items rest ∧ (Stops conf rest stop ∨
        Over rest ∧ (∃ given ∈ items, given.flag.name = lit "help") ∧
          stop = exits conf []) := by
  constructor
  · intro parsed
    cases ran : parseLoop conf memory (argv.drop 1) 0 with
    | error stop' =>
        rw [optConfigParse, configured.fresh, if_neg Bool.false_ne_true, ran] at parsed
        obtain rfl := Except.error.inj parsed
        obtain ⟨items, rest, line, stops⟩ := (parseLoop_error_iff configured.apart).1 ran
        exact ⟨items, rest, line, .inl stops⟩
    | ok result =>
        obtain ⟨conf₁, memory₁, args₁⟩ := result
        obtain ⟨items, line, ended, -⟩ := (parseLoop_ok_iff configured.apart).1 ran
        rw [optConfigParse_of_ok configured line ended] at parsed
        by_cases help : isOn (settled conf memory items) conf.help = true
        · rw [if_pos help] at parsed
          obtain rfl := Except.error.inj parsed
          exact ⟨items, args₁, line,
            .inr ⟨ended, (isOn_settled configured line.flags memory).1 help, rfl⟩⟩
        · rw [if_neg help] at parsed
          cases parsed
  · rintro ⟨items, rest, line, stops | ⟨ended, help, rfl⟩⟩
    · have ran : parseLoop conf memory (argv.drop 1) 0 = .error stop :=
        (parseLoop_error_iff configured.apart).2 ⟨items, rest, line, stops⟩
      rw [optConfigParse, configured.fresh, if_neg Bool.false_ne_true, ran]
    · have on := (isOn_settled configured line.flags memory).2 help
      rw [optConfigParse_of_ok configured line ended, if_pos on]

/-- **The command lines that are refused, and those that are undefined.** The parser exits with a
message and the usage of all flags when the first thing wrong behind the flags that are right is a
`Mistake`, and the message is that mistake's; with the usage alone when nothing is wrong and help
is asked for; and never otherwise. Where the first thing wrong is an integer that no `int` holds,
`atoi` is undefined, and what the program does is not said; no other command line is so. -/
theorem parse_refused_iff (configured : Configured conf) :
    (∀ err out, optConfigParse conf memory argv = .error (.exit err out) ↔
      out = optConfigPrintUsage conf ∧ ∃ items rest, Line conf (argv.drop 1) items rest ∧
        (Mistake conf rest err ∨
          Over rest ∧ (∃ given ∈ items, given.flag.name = lit "help") ∧ err = [])) ∧
      (optConfigParse conf memory argv = .error .undefined ↔
        ∃ items rest, Line conf (argv.drop 1) items rest ∧ TooLarge conf rest) ∧
      optConfigParse conf memory argv ≠ .error .assertion := by
  refine ⟨fun err out => ?_, ?_, ?_⟩
  · rw [optConfigParse_error_iff configured]
    constructor
    · rintro ⟨items, rest, line, stops | ⟨ended, help, same⟩⟩
      · obtain ⟨rfl, mistake⟩ := (stops_exit_iff).1 stops
        exact ⟨rfl, items, rest, line, .inl mistake⟩
      · obtain ⟨rfl, rfl⟩ := Stop.exit.inj same
        exact ⟨rfl, items, rest, line, .inr ⟨ended, help, rfl⟩⟩
    · rintro ⟨rfl, items, rest, line, mistake | ⟨ended, help, rfl⟩⟩
      · exact ⟨items, rest, line, .inl (.mistake mistake)⟩
      · exact ⟨items, rest, line, .inr ⟨ended, help, rfl⟩⟩
  · rw [optConfigParse_error_iff configured]
    constructor
    · rintro ⟨items, rest, line, stops | ⟨-, -, impossible⟩⟩
      · exact ⟨items, rest, line, stops_undefined_iff.1 stops⟩
      · cases impossible
    · rintro ⟨items, rest, line, tooLarge⟩
      exact ⟨items, rest, line, .inl (.tooLarge tooLarge)⟩
  · rw [Ne, optConfigParse_error_iff configured]
    rintro ⟨items, rest, line, stops | ⟨-, -, impossible⟩⟩
    · exact not_stops_assertion stops
    · cases impossible

/-- A port below zero is taken for a flag. -/
theorem parse_refused_port : optConfigParse portOnly (fun _ => none)
    [lit "feedserver", lit "--port", lit "80", lit "--port", lit "-1"] =
      .error (.exit (requires (lit "port") "an integer") (optConfigPrintUsage portOnly)) := by
  have line : Line portOnly [lit "--port", lit "80", lit "--port", lit "-1"] [givenPort]
      [lit "--port", lit "-1"] := ⟨rfl, by simpa using givenPort_of⟩
  refine ((parse_refused_iff configured_portOnly).1 _ _).2 ⟨rfl, _, _, line, .inl ?_⟩
  exact .missing givenPort_of.found (by decide) (by decide) (by decide)

end Accepted

end Feedserver.Options
