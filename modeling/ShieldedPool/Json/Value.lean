/-
JSON values as they are read.  A document may hold values that nothing asks
for; they must be well formed but need not mean anything here.  So a number is
kept as an unsigned integer or as just a number, and a text whose escapes
leave half a surrogate pair is well formed but has no content.
-/

namespace ShieldedPool.Json

/-- The content of a text, if its escapes stand for characters. -/
abbrev Content := Option String

/-- A JSON value, with the fields of a record in written order. -/
inductive Value
  | null
  | bool (value : Bool)
  /-- The integer, when it is written as digits only. -/
  | number (natural : Option Nat)
  | text (content : Content)
  | list (items : List Value)
  | record (fields : List (Content × Value))

namespace Value

/-- The unsigned integer below `bound` that a value is. -/
def natural? (bound : Nat) : Value → Option Nat
  | number (some n) => if n < bound then some n else none
  | _ => none

def word64? (v : Value) : Option UInt64 :=
  (v.natural? UInt64.size).map UInt64.ofNat

def byte? (v : Value) : Option UInt8 := (v.natural? UInt8.size).map UInt8.ofNat

def bool? : Value → Option Bool
  | bool b => some b
  | _ => none

def text? : Value → Option String
  | text content => content
  | _ => none

/-- What `read` makes of every item of a list. -/
def listOf? {α : Type} (read : Value → Option α) : Value → Option (List α)
  | list items => items.mapM read
  | _ => none

/-- What `read` makes of a value, where null stands for nothing. -/
def nullable? {α : Type} (read : Value → Option α) : Value → Option (Option α)
  | null => some none
  | v => (read v).map some

end Value

/-- The only value under a name: absent, or read once.  A second one is an
error. -/
def onlyField? (name : String) (fields : List (String × Value)) :
    Option (Option Value) :=
  match fields.filter (·.1 = name) with
  | [] => some none
  | [(_, v)] => some (some v)
  | _ => none

/-- The values of named fields.  They are written either as a record, whose
other fields are ignored, or as a list in the order of the names, which may
stop early but not run over. -/
def Value.fields? (names : List String) : Value → Option (List (Option Value))
  | .record fields => do
      let fields ← fields.mapM fun field => field.1.map (·, field.2)
      names.mapM (onlyField? · fields)
  | .list items =>
      if items.length ≤ names.length then
        some (items.map some ++ List.replicate (names.length - items.length) none)
      else none
  | _ => none

end ShieldedPool.Json
