/-
# Options.Configuration — the configurations that a command line can ask for

* `Configuration`: what `main` hands on to the HTTP server, and `commandLine`, one way to ask
  for it.
* `commandLine_read`: what has been asked for is what is read.
* `configuration_iff`: the configurations the server starts with are all those whose two strings
  do not begin with a dash. `expect_next_arg` refuses these, and numbers below zero too, but not
  behind a blank (`blank_of_negative`).
-/
import Feedserver.Options.CommandLine

namespace Feedserver.Options

open Feedserver.Theory
open Feedserver.Source

set_option autoImplicit false

/-- The part of `configuration` that is read from the command line. -/
structure Configuration where
  httpListenPort : Int32
  threadCount : Int32
  balancer : CString
  parser : CString
  maxRequestSize : Int32
  tcpNodelay : Bool
  listenBacklog : Int32

variable {D : Doubles}

/-- The variables that hold it. -/
def Configuration.memory (c : Configuration) : Memory D Setting
  | .help => some (.bool false)
  | .httpListenPort => some (.int c.httpListenPort)
  | .threadCount => some (.int c.threadCount)
  | .balancer => some (.string c.balancer)
  | .parser => some (.string c.parser)
  | .maxRequestSize => some (.int c.maxRequestSize)
  | .tcpNodelay => some (.bool c.tcpNodelay)
  | .listenBacklog => some (.int c.listenBacklog)

/-- An argument that is read as this number: one below zero stands behind a blank. -/
def number (i : Int32) : CString :=
  ⟨0x20 :: decimal i.toInt, by simpa using nulFree_decimal i.toInt⟩

def Configuration.commandLine (c : Configuration) : List CString :=
  [dashed (lit "port"), number c.httpListenPort, dashed (lit "threads"), number c.threadCount,
    dashed (lit "balancer"), c.balancer, dashed (lit "parser"), c.parser,
    dashed (lit "max_request_size"), number c.maxRequestSize,
    dashed (lit "listen_backlog"), number c.listenBacklog] ++
    if c.tcpNodelay then [dashed (lit "tcp_nodelay")] else []

theorem atoi_number (i : Int32) : atoi (number i) = some i := by
  have value : strtol (number i).bytes = i.toInt :=
    (strtol_blank (by decide) _).trans (strtol_decimal i.toInt)
  rw [atoi, value, if_pos ⟨i.minValue_le_toInt, i.toInt_le⟩, Int32.ofInt_toInt]

theorem number_noDash (i : Int32) : ¬ StartsDash (number i) := by
  simp [StartsDash, number, DASH]

/-- Only an integer flag stores an integer. -/
theorem text_of_int {type : OptFlagType} {text : Option CString} {i : Int32}
    (reads : argument (D := D) type text = some (.int i)) :
    ∃ read, text = some read ∧ atoi read = some i := by
  cases type with
  | bool => cases text <;> cases reads
  | double => cases text <;> cases reads
  | string => cases text <;> cases reads
  | int =>
      cases text with
      | none => cases reads
      | some read =>
          obtain ⟨j, ran, same⟩ := Option.map_eq_some_iff.1 reads
          cases same
          exact ⟨read, rfl, ran⟩

theorem toInt_of_atoi {text : CString} {i : Int32} (read : atoi text = some i) :
    i.toInt = strtol text.bytes := by
  rw [atoi] at read
  split at read
  · rename_i range
    obtain rfl := Option.some.inj read
    exact Int32.toInt_ofInt_of_le range.1 (Int.lt_add_one_of_le range.2)
  · cases read

/-- A number below zero can be given behind a blank only. -/
theorem blank_of_negative {Var : Type} {flags : List (OptFlag D Var)} {given : Given D Var}
    (of : given.Of flags) {i : Int32} (value : given.value = .int i) (negative : i.toInt < 0) :
    ∃ text, given.text = some text ∧ ∃ b rest, text.bytes = b :: rest ∧ isspace b = true := by
  obtain ⟨text, taken, read⟩ := text_of_int (value ▸ of.reads)
  have noDash := of.noDash text taken
  rw [toInt_of_atoi read] at negative
  have sign := sign_of_negative negative
  refine ⟨text, taken, ?_⟩
  cases shown : text.bytes with
  | nil => simp [shown] at sign
  | cons b rest =>
      refine ⟨b, rest, rfl, ?_⟩
      cases blank : isspace b with
      | true => rfl
      | false =>
          rw [shown, List.dropWhile_cons_of_neg (by simp [blank])] at sign
          exact absurd (by rw [StartsDash, shown]; exact sign) noDash

/-! ## The options of main -/

theorem configured_main (D : Doubles) (memory : Memory D Setting) :
    Configured (mainOptions D memory).1 where
  fresh := rfl
  unparsed := by
    simp [mainOptions, optConfigInit, optFlagBool, optFlagInt, optFlagString, optFlagAdd]
  apart := by
    show [Setting.help, .httpListenPort, .threadCount, .balancer, .parser, .maxRequestSize,
      .tcpNodelay, .listenBacklog].Nodup
    decide
  help := ⟨_, _, rfl⟩

/-- The names in the order in which the flags are added. -/
def mainNames : List CString :=
  [lit "help", lit "port", lit "threads", lit "balancer", lit "parser", lit "max_request_size",
    lit "tcp_nodelay", lit "listen_backlog"]

def mainFlag (D : Doubles) (k : Fin 8) : OptFlag D Setting :=
  (mainOptions D fun _ => none).1.flags.get k

/-- Each is found under its name. -/
theorem findFlag_of_mem {Var : Type} {flags : List (OptFlag D Var)}
    (names : (flags.map OptFlag.name).Nodup) {flag : OptFlag D Var} (member : flag ∈ flags) :
    findFlag flags flag.name = some flag := by
  cases found : findFlag flags flag.name with
  | none => simpa using List.find?_eq_none.1 found flag member
  | some other =>
      have same := List.inj_on_of_nodup_map names (List.mem_of_find?_eq_some found) member
      rw [same (findFlag_name found)]

/-- Every flag of main can be given. -/
theorem given_main {k : Fin 8} (memory : Memory D Setting) {text : Option CString}
    {value : Value D} (noDash : ∀ s ∈ text, ¬ StartsDash s)
    (reads : argument (mainFlag D k).type text = some value) :
    Given.Of (mainOptions D memory).1.flags ⟨mainFlag D k, text, value⟩ where
  found := by
    have names : ((mainOptions D memory).1.flags.map OptFlag.name).Nodup := by
      show mainNames.Nodup
      decide
    exact findFlag_of_mem names (List.get_mem (mainOptions D fun _ => none).1.flags k)
  named := by
    have all : ∀ name ∈ mainNames, name.bytes ≠ [] := by decide
    exact all _ (List.mem_map_of_mem (List.get_mem (mainOptions D fun _ => none).1.flags k))
  noDash := noDash
  reads := reads

/-- The flags that ask for a configuration. -/
def Configuration.given (D : Doubles) (c : Configuration) : List (Given D Setting) :=
  [⟨mainFlag D 1, some (number c.httpListenPort), .int c.httpListenPort⟩,
    ⟨mainFlag D 2, some (number c.threadCount), .int c.threadCount⟩,
    ⟨mainFlag D 3, some c.balancer, .string c.balancer⟩,
    ⟨mainFlag D 4, some c.parser, .string c.parser⟩,
    ⟨mainFlag D 5, some (number c.maxRequestSize), .int c.maxRequestSize⟩,
    ⟨mainFlag D 7, some (number c.listenBacklog), .int c.listenBacklog⟩] ++
    if c.tcpNodelay then [⟨mainFlag D 6, none, .bool true⟩] else []

theorem given_of {c : Configuration} (balancer : ¬ StartsDash c.balancer)
    (parser : ¬ StartsDash c.parser) (memory : Memory D Setting) :
    ∀ given ∈ c.given D, given.Of (mainOptions D memory).1.flags := by
  have integer {k : Fin 8} (i : Int32) (type : (mainFlag D k).type = .int) :
      Given.Of (mainOptions D memory).1.flags ⟨mainFlag D k, some (number i), .int i⟩ := by
    refine given_main memory (by simpa using number_noDash i) ?_
    rw [type, argument, atoi_number]
    rfl
  have string {k : Fin 8} {s : CString} (noDash : ¬ StartsDash s)
      (type : (mainFlag D k).type = .string) :
      Given.Of (mainOptions D memory).1.flags ⟨mainFlag D k, some s, .string s⟩ :=
    given_main memory (by simpa using noDash) (by rw [type]; rfl)
  intro given member
  obtain inside | inside := List.mem_append.1 member
  · simp only [List.mem_cons, List.not_mem_nil, or_false] at inside
    obtain rfl | rfl | rfl | rfl | rfl | rfl := inside
    · exact integer _ rfl
    · exact integer _ rfl
    · exact string balancer rfl
    · exact string parser rfl
    · exact integer _ rfl
    · exact integer _ rfl
  · cases nodelay : c.tcpNodelay with
    | false => simp [nodelay] at inside
    | true =>
        rw [nodelay] at inside
        obtain rfl := List.mem_singleton.1 inside
        exact given_main memory (by simp) rfl

/-- **What is asked for is what is read**, whatever the variables held before and whatever
arguments follow. -/
theorem commandLine_read {c : Configuration} (balancer : ¬ StartsDash c.balancer)
    (parser : ¬ StartsDash c.parser) (memory : Memory D Setting) (program : CString)
    {args : List CString} (ended : Over args) :
    ∃ conf, mainStart D memory (program :: (c.commandLine ++ args)) =
      .ok (conf, c.memory, args) := by
  have line : Line (mainOptions D memory).1 ((program :: (c.commandLine ++ args)).drop 1)
      (c.given D) args := by
    refine ⟨?_, given_of balancer parser memory⟩
    rw [List.drop_succ_cons, List.drop_zero, Configuration.commandLine, Configuration.given]
    cases c.tcpNodelay with
    | true => rfl
    | false => rfl
  have settled_ : settled (mainOptions D memory).1 (mainOptions D memory).2 (c.given D) =
      c.memory := by
    funext v
    rw [settled, Configuration.given, Configuration.memory.eq_def]
    cases c.tcpNodelay with
    | true => cases v <;> rfl
    | false => cases v <;> rfl
  refine ⟨{ marked (mainOptions D memory).1 (c.given D) with parsed := true }, ?_⟩
  show optConfigParse (mainOptions D memory).1 (mainOptions D memory).2 _ = _
  rw [optConfigParse_of_ok (configured_main D memory) line ended, settled_]
  rfl

/-- An argument is stored as what the type of its flag says. -/
theorem type_of_argument {type : OptFlagType} {text : Option CString} {value : Value D}
    (reads : argument type text = some value) : value.type = type := by
  cases text with
  | none =>
      cases type with
      | bool =>
          cases reads
          rfl
      | int => cases reads
      | double => cases reads
      | string => cases reads
  | some read =>
      cases type with
      | bool => cases reads
      | int =>
          obtain ⟨i, -, rfl⟩ := Option.map_eq_some_iff.1 reads
          rfl
      | double =>
          cases reads
          rfl
      | string =>
          cases reads
          rfl

/-- What is stored of a string is the argument. -/
theorem noDash_of_given {Var : Type} {flags : List (OptFlag D Var)} {given : Given D Var}
    (of : given.Of flags) {s : CString} (value : given.value = .string s) : ¬ StartsDash s := by
  have reads := of.reads
  have string := type_of_argument reads
  rw [value] at reads string
  rw [← string] at reads
  cases text : given.text with
  | none =>
      rw [text] at reads
      cases reads
  | some read =>
      rw [text] at reads
      cases reads
      exact of.noDash s text

section Read

variable {items : List (Given D Setting)} {memory : Memory D Setting}

/-- What the variable of a flag of main holds, if these flags are given. -/
theorem settled_main (all : ∀ given ∈ items, given.Of (mainOptions D memory).1.flags)
    (k : Fin 8) : ∃ value,
      settled (mainOptions D memory).1 (mainOptions D memory).2 items (mainFlag D k).storage =
        some value ∧ value.type = (mainFlag D k).type ∧
      ∀ s, value = .string s → (mainFlag D k).defval ≠ value → ¬ StartsDash s := by
  have member : mainFlag D k ∈ (mainOptions D memory).1.flags :=
    List.get_mem (mainOptions D fun _ => none).1.flags k
  obtain ⟨value, holds, rfl | ⟨given, inside, same, rfl⟩⟩ :=
    settled_flag (configured_main D memory).apart all (mainOptions D memory).2 member
  · exact ⟨_, holds, rfl, fun s _ other => absurd rfl other⟩
  · refine ⟨_, holds, ?_, fun s string _ => noDash_of_given (all given inside) string⟩
    rw [type_of_argument (all given inside).reads, same]

theorem settled_integer (all : ∀ given ∈ items, given.Of (mainOptions D memory).1.flags)
    {k : Fin 8} (type : (mainFlag D k).type = .int) : ∃ i,
      settled (mainOptions D memory).1 (mainOptions D memory).2 items (mainFlag D k).storage =
        some (.int i) := by
  obtain ⟨value, holds, same, -⟩ := settled_main all k
  rw [type] at same
  cases value with
  | int i => exact ⟨i, holds⟩
  | bool b => cases same
  | double d => cases same
  | string s => cases same

theorem settled_switch (all : ∀ given ∈ items, given.Of (mainOptions D memory).1.flags)
    {k : Fin 8} (type : (mainFlag D k).type = .bool) : ∃ b,
      settled (mainOptions D memory).1 (mainOptions D memory).2 items (mainFlag D k).storage =
        some (.bool b) := by
  obtain ⟨value, holds, same, -⟩ := settled_main all k
  rw [type] at same
  cases value with
  | bool b => exact ⟨b, holds⟩
  | int i => cases same
  | double d => cases same
  | string s => cases same

theorem settled_string (all : ∀ given ∈ items, given.Of (mainOptions D memory).1.flags)
    {k : Fin 8} {defval : CString} (default_ : (mainFlag D k).defval = .string defval)
    (noDash : ¬ StartsDash defval) : ∃ s,
      settled (mainOptions D memory).1 (mainOptions D memory).2 items (mainFlag D k).storage =
        some (.string s) ∧ ¬ StartsDash s := by
  obtain ⟨value, holds, same, other⟩ := settled_main all k
  rw [OptFlag.type, default_] at same
  cases value with
  | string s =>
      refine ⟨s, holds, ?_⟩
      by_cases here : s = defval
      · exact here ▸ noDash
      · apply other s rfl
        rw [default_]
        rintro ⟨⟩
        exact here rfl
  | bool b => cases same
  | int i => cases same
  | double d => cases same

end Read

/-- **The configurations the server starts with** are those with no dash in front of the two
strings. -/
theorem configuration_iff (memory memory' : Memory D Setting) :
    (∃ argv conf args, mainStart D memory argv = .ok (conf, memory', args)) ↔
      ∃ c : Configuration, memory' = c.memory ∧ ¬ StartsDash c.balancer ∧
        ¬ StartsDash c.parser := by
  constructor
  · rintro ⟨argv, conf, args, parsed⟩
    obtain ⟨items, ⟨-, all⟩, -, none_, rfl⟩ :=
      given_of_ok (configured_main D memory) parsed
    obtain ⟨help, holdsHelp⟩ := settled_switch all (k := 0) rfl
    obtain ⟨port, holdsPort⟩ := settled_integer all (k := 1) rfl
    obtain ⟨threads, holdsThreads⟩ := settled_integer all (k := 2) rfl
    obtain ⟨balancer, holdsBalancer, plain⟩ := settled_string all (k := 3) rfl (by decide)
    obtain ⟨parser, holdsParser, plain'⟩ := settled_string all (k := 4) rfl (by decide)
    obtain ⟨size, holdsSize⟩ := settled_integer all (k := 5) rfl
    obtain ⟨nodelay, holdsNodelay⟩ := settled_switch all (k := 6) rfl
    obtain ⟨backlog, holdsBacklog⟩ := settled_integer all (k := 7) rfl
    have off : help = false := by
      have asked := isOn_settled (configured_main D memory) all (mainOptions D memory).2
      cases help with
      | false => rfl
      | true =>
          have on : isOn (settled (mainOptions D memory).1 (mainOptions D memory).2 items)
              (mainOptions D memory).1.help = true := by
            rw [isOn]
            exact holdsHelp ▸ rfl
          obtain ⟨given, member, named⟩ := asked.1 on
          exact absurd named (none_ given member)
    refine ⟨⟨port, threads, balancer, parser, size, nodelay, backlog⟩, ?_, plain, plain'⟩
    funext v
    cases v with
    | help =>
        rw [off] at holdsHelp
        exact holdsHelp
    | httpListenPort => exact holdsPort
    | threadCount => exact holdsThreads
    | balancer => exact holdsBalancer
    | parser => exact holdsParser
    | maxRequestSize => exact holdsSize
    | tcpNodelay => exact holdsNodelay
    | listenBacklog => exact holdsBacklog
  · rintro ⟨c, rfl, balancer, parser⟩
    have ended : Over [] := by simp [Over]
    obtain ⟨conf, read⟩ := commandLine_read balancer parser memory (lit "feedserver") ended
    exact ⟨_, conf, [], read⟩

end Feedserver.Options
