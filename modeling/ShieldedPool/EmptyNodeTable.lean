/-
The command that prints the empty nodes of a tree, as a constant to paste into
a program or one node a line.
-/
import ShieldedPool.Merkle.PinnedNodes

namespace ShieldedPool.EmptyNodeTable

inductive Format
  | sourceConstant
  | lines
deriving DecidableEq

structure Request where
  depth : Nat := Merkle.ledgerDepth
  format : Format := .sourceConstant
  verify : Bool := false
deriving DecidableEq

inductive Reading
  | help
  | request (request : Request)
deriving DecidableEq

/-- The options that arguments have set so far, each at most once. -/
structure Given where
  depth : Option Nat := none
  format : Option Format := none
  verify : Bool := false

/-- The request of the given options, with standard values for the others. -/
def Given.toRequest (given : Given) : Request :=
  { depth := given.depth.getD Merkle.ledgerDepth
    format := given.format.getD .sourceConstant
    verify := given.verify }

/-- A decimal number of 64 bits, with an optional plus sign. -/
def number? (value : List Char) : Option Nat :=
  let digits := match value with
    | '+' :: rest => rest
    | digits => digits
  if digits.isEmpty || !digits.all Char.isDigit then none
  else
    let n := digits.foldl (fun high c => 10 * high + (c.toNat - 48)) 0
    if n < UInt64.size then some n else none

def format? (value : List Char) : Option Format :=
  if value = "rust".toList then some .sourceConstant
  else if value = "hex".toList then some .lines
  else none

inductive ValueOption
  | depth
  | format
deriving DecidableEq

/-- Set an option that is not set yet to a readable value. -/
def Given.set? (given : Given) (option : ValueOption) (value : List Char) :
    Option Given :=
  match option with
  | .depth =>
      if given.depth.isSome then none
      else (number? value).map fun depth => { given with depth := some depth }
  | .format =>
      if given.format.isSome then none
      else (format? value).map fun format => { given with format := some format }

/-- An argument, by its form. -/
inductive Argument
  | named (option : ValueOption)
  | withValue (option : ValueOption) (value : List Char)
  | verify
  | help
  /-- The mark after which no option follows. -/
  | endOfOptions
  | unknown

/-- The value behind the letter of an option; an equals sign between them does
not count. -/
def attached (option : ValueOption) : List Char → Argument
  | [] => .named option
  | '=' :: value => .withValue option value
  | value => .withValue option value

/-- The option of a long name, without a value or with one behind `=`. -/
def longOption (text : List Char) : Argument :=
  let name := text.takeWhile (· ≠ '=')
  let value := text.dropWhile (· ≠ '=')
  let option? :=
    if name = "depth".toList then some ValueOption.depth
    else if name = "format".toList then some ValueOption.format
    else none
  match option?, value with
  | some option, [] => .named option
  | some option, _ :: value => .withValue option value
  | none, [] =>
      if name = "verify".toList then .verify
      else if name = "help".toList then .help
      else .unknown
  | none, _ :: _ => .unknown

def classify : List Char → Argument
  | ['-', '-'] => .endOfOptions
  | '-' :: '-' :: text => longOption text
  | '-' :: 'd' :: rest => attached .depth rest
  | '-' :: 'f' :: rest => attached .format rest
  | '-' :: 'h' :: _ => .help
  | _ => .unknown

/-- The text can be the value of an option before it: it is no option itself. -/
def isValue : List Char → Bool
  | ['-'] => true
  | '-' :: _ => false
  | _ => true

/-- Read arguments after those that are given.  No argument stands alone, so
nothing may follow the end of the options. -/
def readArguments (given : Given) : List (List Char) → Option Reading
  | [] => some (.request given.toRequest)
  | argument :: rest =>
      match classify argument, rest with
      | .named option, value :: rest =>
          if isValue value then (given.set? option value).bind (readArguments · rest)
          else none
      | .named _, [] => none
      | .withValue option value, rest =>
          (given.set? option value).bind (readArguments · rest)
      | .verify, rest =>
          if given.verify then none else readArguments { given with verify := true } rest
      | .help, _ => some .help
      | .endOfOptions, [] => some (.request given.toRequest)
      | .endOfOptions, _ :: _ => none
      | .unknown, _ => none

def byteLiteral (byte : UInt8) : String := "0x" ++ Hex.encode [byte]

/-- Rows of eight bytes. -/
def byteRows : (count : Nat) → Bytes → List Bytes
  | 0, _ => []
  | count + 1, bytes => bytes.take 8 :: byteRows count (bytes.drop 8)

/-- The lines of one level of the constant. -/
def levelLines (level : Nat) (a : Felt) : List String :=
  [s!"    // Level {level}", "    ["]
    ++ (byteRows 4 a.toBytes).map (fun row =>
      "        " ++ ", ".intercalate (row.map byteLiteral) ++ ",")
    ++ ["    ],"]

def constantLines (depth : Merkle.Depth) : List String :=
  [s!"pub const ZERO_HASHES_DEPTH_{depth.levels}: [[u8; 32]; {depth.levels + 1}] = ["]
    ++ (depth.emptyNodes.mapIdx levelLines).flatten
    ++ ["];"]

/-- A level and its node, the level in two columns. -/
def nodeLine (level : Nat) (a : Felt) : String :=
  let column := if level < 10 then " " else ""
  s!"{column}{level}: {a.toHex}"

def tableLines (depth : Merkle.Depth) : Format → List String
  | .sourceConstant => constantLines depth
  | .lines => depth.emptyNodes.mapIdx nodeLine

/-- Print a requested table, after comparing it with the pinned nodes if that
is asked for. -/
def Request.run (request : Request) : Except Failure String := do
  let depth ← Merkle.Depth.ofNat request.depth
  if request.verify then depth.checkPinned
  return String.join ((tableLines depth request.format).map (· ++ "\n"))

def helpText : String :=
  String.join (
    ["Compute empty-subtree Poseidon hashes for the commitment tree",
     "",
     "Usage: compute-zero-hashes [OPTIONS]",
     "",
     "Options:",
     "  -d, --depth <DEPTH>    Tree depth [default: 20]",
     "  -f, --format <FORMAT>  [default: rust] [possible values: rust, hex]",
     "      --verify           Compare with the pinned table",
     "  -h, --help             Print help"].map (· ++ "\n"))

/-- What a call ends with. -/
structure Outcome where
  exitCode : UInt32
  output : String
  error : String
deriving DecidableEq

def run (arguments : List String) : Outcome :=
  match readArguments {} (arguments.map String.toList) with
  | none => ⟨2, "", "error: invalid arguments\n"⟩
  | some .help => ⟨0, helpText, ""⟩
  | some (.request request) =>
      match request.run with
      | .ok output => ⟨0, output, ""⟩
      | .error failure => ⟨1, "", s!"Error: {failure.message}\n"⟩

end ShieldedPool.EmptyNodeTable
