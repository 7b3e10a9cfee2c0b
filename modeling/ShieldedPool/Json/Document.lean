/-
Reading documents of the pool.  A field element is written as a hexadecimal
text; a field that may be missing has a value to stand for it.
-/
import ShieldedPool.Felt
import ShieldedPool.Json.Reader
import ShieldedPool.Json.Writer

namespace ShieldedPool.Json

def Value.felt? (v : Value) : Option Felt := do
  let text ← v.text?
  (Felt.ofHex text).toOption

def ofFelt (a : Felt) : String := quote a.toHex

/-- What `read` makes of a field that has to be there. -/
def required? {α : Type} (read : Value → Option α) (field : Option Value) : Option α :=
  field.bind read

/-- What `read` makes of a field, or `missing` where there is none. -/
def fieldOr? {α : Type} (missing : α) (read : Value → Option α) :
    Option Value → Option α
  | none => some missing
  | some v => read v

/-- What `read` makes of a field that may be null or missing. -/
def optional? {α : Type} (read : Value → Option α) (field : Option Value) :
    Option (Option α) :=
  fieldOr? none (Value.nullable? read) field

/-- The field element that a whole document is. -/
def readFelt? (document : String) : Option Felt := (parse? document).bind Value.felt?

end ShieldedPool.Json
