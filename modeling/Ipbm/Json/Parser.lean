import Ipbm.Json.Lexer
import Ipbm.Lib.OrderedMap
import Mathlib.Data.String.Basic

/-! The parser of the JSON library (`sax_parse_internal` with the handler that builds
the document, `json.hpp`) and the access to a document. -/

set_option autoImplicit false

namespace Ipbm
open Lib

/-- The members of an object are a map by their keys. -/
inductive Json where
  | null
  | boolean (value : Bool)
  | integer (value : Int)
  | float
  | string (text : String)
  | array (items : List Json)
  | object (members : List (String × Json))
  deriving Repr

namespace Json

/-- A container that is still open: its elements so far, or its members and the key that waits for a value. -/
inductive Frame where
  | array (items : List Json)
  | object (members : OrderedMap String Json) (key : String)

/-- `operator[]` of an object: the last value of a key stays. -/
def put (members : OrderedMap String Json) (key : String) (value : Json) : OrderedMap String Json :=
  OrderedMap.alter members key fun _ => value

mutual

/-- A value is expected. -/
def parseValue (frames : List Frame) : List Token → Option Json
  | .beginObject :: .endObject :: rest => afterValue frames (.object []) rest
  | .beginObject :: .valueString key :: .nameSeparator :: rest => parseValue (.object [] key :: frames) rest
  | .beginArray :: .endArray :: rest => afterValue frames (.array []) rest
  | .beginArray :: rest => parseValue (.array [] :: frames) rest
  | .literalTrue :: rest => afterValue frames (.boolean true) rest
  | .literalFalse :: rest => afterValue frames (.boolean false) rest
  | .literalNull :: rest => afterValue frames .null rest
  | .valueString text :: rest => afterValue frames (.string text) rest
  | .valueInteger value :: rest => afterValue frames (.integer value) rest
  | .valueFloat :: rest => afterValue frames .float rest
  | _ => none

/-- A value has just been read. Text behind the outermost one is not looked at. -/
def afterValue : List Frame → Json → List Token → Option Json
  | [], value, _ => some value
  | .array items :: frames, value, .valueSeparator ::
    rest => parseValue (.array (items ++ [value]) :: frames) rest
  | .array items :: frames, value, .endArray :: rest => afterValue frames (.array (items ++ [value])) rest
  | .object members key :: frames, value, .valueSeparator :: .valueString next :: .nameSeparator :: rest =>
      parseValue (.object (put members key value) next :: frames) rest
  | .object members key :: frames, value, .endObject ::
    rest => afterValue frames (.object (put members key value)) rest
  | _, _, _ => none

end

/-- `operator>>` of a stream, which throws where the text is no document. -/
def parse (text : List Char) : Option Json :=
  parseValue [] (Lexer.scanner.tokens (if text.head? = some '\uFEFF' then text.tail else text))

/-! ### Access -/

/-- `at` throws for a value that is no object, and for a key that is missing. -/
def at? (json : Json) (key : String) : Option Json :=
  match json with
  | .object members => OrderedMap.find members key
  | _ => none

/-- `get<int>`, a `static_cast`; what a floating number converts to is left out. -/
def getInt : Json → Option Int
  | .integer value => some (Int.bmod value (2 ^ 32))
  | .boolean value => some value.toNat
  | _ => none

def getString : Json → Option String
  | .string text => some text
  | _ => none

/-- The values a loop over a document visits; over a null there are none. -/
def elements : Json → List Json
  | .null => []
  | .array items => items
  | .object members => members.map Prod.snd
  | json => [json]

end Json

end Ipbm
