/-
# Source.OptParse — opt.c and parse.c, and the options of main

The flags of a configuration are pointers to variables of the program, `Var`, and what these
hold is a `Memory`; a variable that nobody has written holds nothing. A flag's type is the
constructor of its default, so that the tag and the union of the source cannot disagree. Of a
`double` the parser knows no more than `atof` and `%f`, and they are parameters.

`Stop` is where the call does not come back: `exit(1)` with what has been written until then,
the assertion on a configuration that has been parsed before, and `atoi` of a number that no
`int` holds, which the C standard leaves undefined.
-/
import Feedserver.Theory.Decimal

namespace Feedserver.Source

open Feedserver.Theory

set_option autoImplicit false

structure Doubles where
  Double : Type
  atof : CString → Double
  print : Double → CString

inductive Value (D : Doubles) where
  | bool (b : Bool)
  | int (i : Int32)
  | double (d : D.Double)
  | string (s : CString)

inductive OptFlagType where
  | bool
  | int
  | double
  | string
deriving DecidableEq

def Value.type {D : Doubles} : Value D → OptFlagType
  | .bool _ => .bool
  | .int _ => .int
  | .double _ => .double
  | .string _ => .string

abbrev Memory (D : Doubles) (Var : Type) := Var → Option (Value D)

/-- `struct opt_flag`. -/
structure OptFlag (D : Doubles) (Var : Type) where
  parsed : Bool
  name : CString
  usage : CString
  storage : Var
  defval : Value D

/-- `struct opt_config`; `help` is where its member of that name is kept. -/
structure OptConfig (D : Doubles) (Var : Type) where
  flags : List (OptFlag D Var)
  parsed : Bool
  help : Var

inductive Stop where
  /-- `exit(1)`, and what has been written to `stderr` and to `stdout` -/
  | exit (err out : Bytes)
  /-- `assert(!conf->parsed)` -/
  | assertion
  /-- `atoi` of what is no `int` -/
  | undefined
deriving DecidableEq

section OptParse

variable {D : Doubles} {Var : Type} [DecidableEq Var]

def OptFlag.type (flag : OptFlag D Var) : OptFlagType := flag.defval.type

/-- `*storage = value` -/
def store (memory : Memory D Var) (storage : Var) (value : Value D) : Memory D Var :=
  fun v => if v = storage then some value else memory v

/-! ## opt.c -/

def optFlagAdd (conf : OptConfig D Var) (flag : OptFlag D Var) : OptConfig D Var :=
  { conf with flags := conf.flags ++ [flag] }

def optFlagBool (conf : OptConfig D Var) (storage : Var) (name usage : CString) :
    OptConfig D Var :=
  optFlagAdd conf ⟨false, name, usage, storage, .bool false⟩

def optFlagInt (conf : OptConfig D Var) (storage : Var) (name : CString) (defval : Int32)
    (usage : CString) : OptConfig D Var :=
  optFlagAdd conf ⟨false, name, usage, storage, .int defval⟩

def optFlagDouble (conf : OptConfig D Var) (storage : Var) (name : CString) (defval : D.Double)
    (usage : CString) : OptConfig D Var :=
  optFlagAdd conf ⟨false, name, usage, storage, .double defval⟩

def optFlagString (conf : OptConfig D Var) (storage : Var) (name defval usage : CString) :
    OptConfig D Var :=
  optFlagAdd conf ⟨false, name, usage, storage, .string defval⟩

/-- `opt_config_init`: the first flag is always the one for help. -/
def optConfigInit (help : Var) (memory : Memory D Var) : OptConfig D Var × Memory D Var :=
  (optFlagBool ⟨[], false, help⟩ help (lit "help") (lit "Shows this usage information."),
    store memory help (.bool false))

/-- What `opt_flag_print_usage` prints. -/
def optFlagPrintUsage (flag : OptFlag D Var) : Bytes :=
  ascii "--" ++ flag.name.bytes ++
    (match flag.defval with
      | .bool _ => []
      | .int i => ascii " " ++ decimal i.toInt
      | .double d => ascii " " ++ (D.print d).bytes
      | .string s => ascii " " ++ s.bytes) ++
    ascii "\n\t" ++ flag.usage.bytes ++ ascii "\n"

/-- `opt_config_print_usage`, which is `opt_config_print_defaults` unless it is replaced. -/
def optConfigPrintUsage (conf : OptConfig D Var) : Bytes := conf.flags.flatMap optFlagPrintUsage

/-! ## parse.c -/

def DASH : UInt8 := 0x2D

/-- `atoi`, where it is defined. -/
def atoi (s : CString) : Option Int32 :=
  if Int32.minValue.toInt ≤ strtol s.bytes ∧ strtol s.bytes ≤ Int32.maxValue.toInt then
    some (Int32.ofInt (strtol s.bytes))
  else none

/-- The argument is the first that is no flag. -/
def nonFlag (arg : CString) : Bool :=
  arg.bytes.length < 3 || arg.bytes[0]? ≠ some DASH || arg.bytes[1]? ≠ some DASH

/-- `argv[i] + 2` -/
def chomp (arg : CString) : CString := cstr (arg.bytes.drop 2)

def exits (conf : OptConfig D Var) (err : Bytes) : Stop := .exit err (optConfigPrintUsage conf)

def unrecognized (cur : CString) : Bytes :=
  ascii "Unrecognized flag '--" ++ cur.bytes ++ ascii "'.\n"

/-- `"Flag '--%s' requires …\n"` -/
def requires (flagName : CString) (what : String) : Bytes :=
  ascii "Flag '--" ++ flagName.bytes ++ ascii "' requires " ++ ascii what ++ ascii " argument.\n"

/-- `expect_next_arg`, with the argument that is read behind it. Both of its comparisons look at
the first character. -/
def expectNextArg (conf : OptConfig D Var) (next : Option CString) (msg : Bytes) :
    Except Stop CString :=
  match next with
  | none => .error (exits conf msg)
  | some text =>
      if text.bytes[0]? = some DASH ∧ text.bytes[0]? = some DASH then .error (exits conf msg)
      else .ok text

/-- The flag that the loop over `conf->flags` stops at. -/
def findFlag (flags : List (OptFlag D Var)) (cur : CString) : Option (OptFlag D Var) :=
  flags.find? fun flag => cur = flag.name

/-- `conf->flags[j]->parsed = true`, for that flag. -/
def markParsed (cur : CString) : List (OptFlag D Var) → List (OptFlag D Var)
  | [] => []
  | flag :: rest =>
      if cur = flag.name then { flag with parsed := true } :: rest
      else flag :: markParsed cur rest

/-- A flag of the command line: what it leaves, and how many arguments it has consumed. -/
def parseFlag (conf : OptConfig D Var) (memory : Memory D Var) (cur : CString)
    (next : Option CString) : Except Stop (OptConfig D Var × Memory D Var × Nat) :=
  match findFlag conf.flags cur with
  | none => .error (exits conf (unrecognized cur))
  | some flag =>
      let marked := { conf with flags := markParsed cur conf.flags }
      match flag.type with
      | .bool => .ok (marked, store memory flag.storage (.bool true), 1)
      | .int => do
          let text ← expectNextArg conf next (requires flag.name "an integer")
          match atoi text with
          | none => .error .undefined
          | some i => .ok (marked, store memory flag.storage (.int i), 2)
      | .double => do
          let text ← expectNextArg conf next (requires flag.name "a double")
          .ok (marked, store memory flag.storage (.double (D.atof text)), 2)
      | .string => do
          let text ← expectNextArg conf next (requires flag.name "a string")
          .ok (marked, store memory flag.storage (.string text), 2)

/-- The loop over `argv`, while the next `consumed` arguments are the last flag's. What it comes
back with last are the arguments behind the flags. -/
def parseLoop (conf : OptConfig D Var) (memory : Memory D Var) :
    List CString → (consumed : Nat) → Except Stop (OptConfig D Var × Memory D Var × List CString)
  | [], _ => .ok (conf, memory, [])
  | _ :: rest, consumed + 1 => parseLoop conf memory rest consumed
  | arg :: rest, 0 =>
      if nonFlag arg then .ok (conf, memory, arg :: rest)
      else
        match parseFlag conf memory (chomp arg) rest.head? with
        | .error stop => .error stop
        | .ok (conf, memory, argsConsumed) => parseLoop conf memory rest (argsConsumed - 1)

/-- The loop over the flags that have not been parsed. -/
def loadDefaults (flags : List (OptFlag D Var)) (memory : Memory D Var) : Memory D Var :=
  flags.foldl (fun memory flag =>
    if flag.parsed then memory else store memory flag.storage flag.defval) memory

/-- `*storage`, of a flag that is on or off. -/
def isOn (memory : Memory D Var) (storage : Var) : Bool :=
  match memory storage with
  | some (.bool b) => b
  | _ => false

/-- `opt_config_parse`; of `struct opt_args` the arguments, which are none if there are none. -/
def optConfigParse (conf : OptConfig D Var) (memory : Memory D Var) (argv : List CString) :
    Except Stop (OptConfig D Var × Memory D Var × List CString) :=
  if conf.parsed then .error .assertion
  else
    match parseLoop conf memory (argv.drop 1) 0 with
    | .error stop => .error stop
    | .ok (conf, memory, args) =>
        let memory := loadDefaults conf.flags memory
        let conf := { conf with parsed := true }
        if isOn memory conf.help then .error (exits conf [])
        else .ok (conf, memory, args)

end OptParse

/-! ## The options of main -/

/-- The variables: the configuration of the HTTP server, and the member of `conf`. -/
inductive Setting where
  | help
  | httpListenPort
  | threadCount
  | balancer
  | parser
  | maxRequestSize
  | tcpNodelay
  | listenBacklog
deriving DecidableEq

/-- `main`, up to the parsing of its arguments. -/
def mainOptions (D : Doubles) (memory : Memory D Setting) :
    OptConfig D Setting × Memory D Setting :=
  let (conf, memory) := optConfigInit .help memory
  let conf := optFlagInt conf .httpListenPort (lit "port") 8000 (lit "Port to listen on.")
  let conf := optFlagInt conf .threadCount (lit "threads") 0 (lit "Number of threads to use.")
  let conf := optFlagString conf .balancer (lit "balancer") (lit "ipc")
    (lit "Method to load balance threads.")
  let conf := optFlagString conf .parser (lit "parser") (lit "http_parser")
    (lit "HTTP parser to use")
  let conf := optFlagInt conf .maxRequestSize (lit "max_request_size") 1048576
    (lit "Maximum request size. Defaults to 1MB.")
  let conf := optFlagBool conf .tcpNodelay (lit "tcp_nodelay")
    (lit "If present, enables tcp_nodelay (i.e. disables Nagle's algorithm).")
  let conf := optFlagInt conf .listenBacklog (lit "listen_backlog") 0
    (lit "Maximum size of the backlog when accepting connection. Defaults to SOMAXCONN.")
  (conf, memory)

def mainStart (D : Doubles) (memory : Memory D Setting) (argv : List CString) :
    Except Stop (OptConfig D Setting × Memory D Setting × List CString) :=
  let (conf, memory) := mainOptions D memory
  optConfigParse conf memory argv

end Feedserver.Source
