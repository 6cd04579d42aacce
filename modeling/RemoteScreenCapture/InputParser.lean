import RemoteScreenCapture.Common
import RemoteScreenCapture.Lib.Getopt
/-!
# The command line

`input_parser.cc`: the options of both programs, on top of `getopt_long`. An
argument is the bytes before its terminating null, and `inet_pton` is a
parameter. The hash table of options is a list in the order of its initializer;
`std::unordered_map` leaves the order open, so the text about missing options
is the source's up to the order of the names.
-/
open Lib Lib.Getopt

namespace RemoteScreenCapture

inductive ProgramType where
  | kServer
  | kClient
  deriving DecidableEq, Repr

/-- What leaves `Parse` instead of a value. -/
inductive ParseExn where
  | invalidArgument (what : Bytes)
  /-- From `std::stoi`. -/
  | outOfRange
  /-- From a `std::string` of a null pointer. -/
  | logicError
  /-- A read outside `argv`. -/
  | undefined
  deriving DecidableEq, Repr

structure InputParser where
  progType : ProgramType
  host : Bytes
  /-- `none` before it is set. -/
  port : Option UInt16
  /-- `none` before it is set. -/
  period : Option UInt32
  longOptions : List LongOption
  optionEnabled : List (Bytes × Bool)
  deriving DecidableEq, Repr

/-! ## Numbers -/

/-- `isspace` -/
def isSpace (c : UInt8) : Bool := c = 32 || (9 ≤ c && c ≤ 13)

def isDigit (c : UInt8) : Bool := 48 ≤ c && c ≤ 57

/-- A sign at the front, and what is behind it. -/
def takeSign : Bytes → Bytes × Bytes
  | [] => ([], [])
  | c :: s => if c = '-'.toUInt8 ∨ c = '+'.toUInt8 then ([c], s) else ([], c :: s)

/-- `std::strtol` in base 10, without a bound: the number at the front, if there
is one, and how many characters it takes. -/
def strtol (s : Bytes) : Option (Int × Nat) :=
  let spaces := s.takeWhile isSpace
  let (sign, rest) := takeSign (s.dropWhile isSpace)
  let digits := rest.takeWhile isDigit
  if digits = [] then none
  else
    let n : Int := readDecimal digits
    some (if sign = lit "-" then -n else n, (spaces ++ sign ++ digits).length)

def stoi (s : Bytes) : Except ParseExn (Int × Nat) :=
  match strtol s with
  | none => .error (.invalidArgument (lit "stoi"))
  | some (n, count) => if IsInt n then .ok (n, count) else .error .outOfRange

/-- `std::string(arg)` -/
def string : Option Bytes → Except ParseExn Bytes
  | none => .error .logicError
  | some s => .ok s

namespace InputParser

abbrev OptionProc := Proc InputParser ParseExn

/-! ## Options -/

def initServerStructs (p : InputParser) : InputParser :=
  { p with
    longOptions := [⟨lit "port", .requiredArgument, 0⟩]
    optionEnabled := [(lit "--port", false)] }

def initClientStructs (p : InputParser) : InputParser :=
  { p with
    longOptions := [⟨lit "srv", .requiredArgument, 0⟩, ⟨lit "period", .requiredArgument, 0⟩]
    optionEnabled := [(lit "--srv", false), (lit "--period", false)] }

def new (type : ProgramType) : InputParser :=
  let p : InputParser := ⟨type, [], none, none, [], []⟩
  match type with
  | .kServer => p.initServerStructs
  | .kClient => p.initClientStructs

section Arguments
variable (inetPton : Bytes → Bool)

def parseHost (arg : Option Bytes) : OptionProc Unit := do
  let hostStr ← string arg
  if ¬inetPton hostStr then
    throw (.invalidArgument (lit "Invalid host."))
  modify fun p => { p with host := hostStr }

def parseNum (numStr : Bytes) : OptionProc Int := do
  let (num, count) ← stoi numStr
  if count ≠ numStr.length then
    throw (.invalidArgument (lit "Invalid num."))
  return num

def parsePort (arg : Option Bytes) : OptionProc Unit := do
  let portStr ← string arg
  let port ← parseNum portStr
  if port ≤ 0 ∨ 65535 < port then
    throw (.invalidArgument (lit "Invalid port."))
  modify fun p => { p with port := some (.ofInt port) }

def parsePeriod (arg : Option Bytes) : OptionProc Unit := do
  let periodStr ← string arg
  let period ← parseNum periodStr
  if period < 0 ∨ 86400 < period then
    throw (.invalidArgument (lit "Invalid period."))
  modify fun p => { p with period := some (.ofInt period) }

def colon : UInt8 := ':'.toUInt8

def parseSrv (arg : Option Bytes) : OptionProc Unit := do
  let hostPort ← string arg
  match hostPort.idxOf? colon with
  | none => throw (.invalidArgument (lit "Invalid host or port: " ++ hostPort))
  | some pos =>
    let hostStr := hostPort.take pos
    let portStr := hostPort.drop (pos + 1)
    parseHost inetPton (some hostStr)
    parsePort (some portStr)

def handleServerOption (optarg : Option Bytes) (optIndex : Nat) : OptionProc Unit :=
  match optIndex with
  | 0 => parsePort optarg
  | _ => return ()

def handleClientOption (optarg : Option Bytes) (optIndex : Nat) : OptionProc Unit :=
  match optIndex with
  | 0 => parseSrv inetPton optarg
  | 1 => parsePeriod optarg
  | _ => return ()

def handleOption (type : ProgramType) (optarg : Option Bytes) (optIndex : Nat) : OptionProc Unit :=
  match type with
  | .kServer => handleServerOption optarg optIndex
  | .kClient => handleClientOption inetPton optarg optIndex

end Arguments

/-- `it->second = true;` -/
def enable (option : Bytes) (p : InputParser) : InputParser :=
  { p with optionEnabled := p.optionEnabled.map fun o => if o.1 = option then (o.1, true) else o }

/-- `missing_options`, up to the order of the names. -/
def missingOptions (p : InputParser) : Bytes :=
  p.optionEnabled.flatMap fun o => if o.2 then [] else o.1 ++ lit " "

/-- A call of `Parse`: the object, the state of `getopt_long` and `option_index`. -/
structure Call where
  parser : InputParser
  getopt : State
  optionIndex : Nat
  deriving DecidableEq, Repr

abbrev CallProc := Proc Call ParseExn

def onParser {α : Type} (p : OptionProc α) : CallProc α := Proc.zoom Call.parser (fun p c => { c with parser := p }) p

/-- `argv[optind - (optarg ? 2 : 1)]` -/
def optionAt (d : State) : Except ParseExn Bytes :=
  let back := if d.optarg.isSome then 2 else 1
  if d.optind < back then .error .undefined
  else
    match d.argv[d.optind - back]? with
    | some option => .ok option
    | none => .error .undefined

section Parse
variable (inetPton : Bytes → Bool)

/-- The loop of `Parse`: a call of `getopt_long`, and the option it comes to. -/
def parseStep : CallProc Bool := do
  let c ← get
  let (r, optionIndex, getopt) := getoptLong c.parser.longOptions c.optionIndex c.getopt
  set { c with getopt, optionIndex }
  if r = -1 then
    return false
  let option ← optionAt getopt
  match c.parser.optionEnabled.lookup option with
  | none => throw (.invalidArgument (lit "Invalid option: " ++ option))
  | some true => throw (.invalidArgument (lit "Duplicate option: " ++ option))
  | some false =>
    onParser (handleOption inetPton c.parser.progType getopt.optarg optionIndex)
    onParser (modify (enable option))
    return true

/-- `Parse`. Every pass of its loop reads one more argument at least. -/
def parse (argv : List Bytes) : CallProc Unit := do
  Proc.loop (parseStep inetPton) (argv.length + 1)
  let missing := (← get).parser.missingOptions
  if missing ≠ [] then
    throw (.invalidArgument (lit "Missing options: " ++ missing))

/-- The parser of a program that was started with `argv`. -/
def run (type : ProgramType) (argv : List Bytes) : Outcome Call ParseExn Unit :=
  parse inetPton argv ⟨new type, start argv, 0⟩

end Parse

end InputParser

end RemoteScreenCapture
