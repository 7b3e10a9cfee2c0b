/-
From words to a value.  The machine keeps a stack of the lists and records
that are still open, so that nesting of any depth is read by one loop over the
words.
-/
import ShieldedPool.Json.Token

namespace ShieldedPool.Json

/-- A list or record that is still open, with what it holds so far, reversed.
An open record is waiting for the value of its last key. -/
inductive Frame
  | list (items : List Value)
  | record (fields : List (Content × Value)) (key : Content)

/-- What the machine waits for. -/
inductive Stage
  | value
  /-- The first item of a list, or its end. -/
  | firstItem
  /-- The first key of a record, or its end. -/
  | firstKey
  /-- A further key of a record with these fields, reversed. -/
  | key (fields : List (Content × Value))
  /-- What follows a finished value. -/
  | after (finished : Value)

/-- Run the machine over all words. -/
def readValue : Stage → List Frame → List Token → Option Value
  | .after v, [], [] => some v
  | .after v, .list items :: frames, .comma :: rest =>
      readValue .value (.list (v :: items) :: frames) rest
  | .after v, .list items :: frames, .closeList :: rest =>
      readValue (.after (.list (v :: items).reverse)) frames rest
  | .after v, .record fields key :: frames, .comma :: rest =>
      readValue (.key ((key, v) :: fields)) frames rest
  | .after v, .record fields key :: frames, .closeRecord :: rest =>
      readValue (.after (.record ((key, v) :: fields).reverse)) frames rest
  | .firstItem, .list items :: frames, .closeList :: rest =>
      readValue (.after (.list items.reverse)) frames rest
  | .firstKey, frames, .closeRecord :: rest =>
      readValue (.after (.record [])) frames rest
  | .firstKey, frames, .text key :: .colon :: rest =>
      readValue .value (.record [] key :: frames) rest
  | .key fields, frames, .text key :: .colon :: rest =>
      readValue .value (.record fields key :: frames) rest
  | .value, frames, token :: rest
  | .firstItem, frames, token :: rest =>
      match token with
      | .null => readValue (.after .null) frames rest
      | .bool b => readValue (.after (.bool b)) frames rest
      | .number n => readValue (.after (.number n)) frames rest
      | .text content => readValue (.after (.text content)) frames rest
      | .openList => readValue .firstItem (.list [] :: frames) rest
      | .openRecord => readValue .firstKey frames rest
      | _ => none
  | _, _, _ => none

def parse? (text : String) : Option Value :=
  (tokens? text).bind (readValue .value [])

end ShieldedPool.Json
