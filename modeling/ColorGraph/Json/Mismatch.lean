import ColorGraph.Json.Draft
import ColorGraph.Json.Writer
import ColorGraph.Text.Quoted
/-!
Well-formed JSON that is not what a record asks for.
-/

set_option autoImplicit false

namespace ColorGraph.Json

inductive Found where
  | null
  | bool (b : Bool)
  | number (n : Number)
  | string (s : String)
  | list
  | object

inductive Mismatch where
  | missing (field : String)
  | duplicate (field : String)
  | unknownVariant (found : String) (known : List String)
  | length (found : Nat) (wanted : String)
  | type (found : Found) (wanted : String)
  | noVariant (type : String)
  | unknownKind (id kind : String)

inductive ReadError where
  | flaw (f : Flaw)
  | mismatch (m : Mismatch)

namespace Found

def text : Found → String
  | null => "null"
  | bool b => "boolean `" ++ toString b ++ "`"
  | number (.int n) => "integer `" ++ toString n ++ "`"
  | number (.float x) => "floating point `" ++ floatLayout.text x ++ "`"
  | string s => "string " ++ Text.quoted s
  | list => "sequence"
  | object => "map"

end Found

namespace Mismatch

def inBackticks (s : String) : String :=
  "`" ++ s ++ "`"

def oneOf : List String → String
  | [a] => inBackticks a
  | [a, b] => inBackticks a ++ " or " ++ inBackticks b
  | names => "one of " ++ ", ".intercalate (names.map inBackticks)

def message : Mismatch → String
  | missing f => "missing field " ++ inBackticks f
  | duplicate f => "duplicate field " ++ inBackticks f
  | unknownVariant v known => "unknown variant " ++ inBackticks v ++ ", expected " ++ oneOf known
  | length n wanted => "invalid length " ++ toString n ++ ", expected " ++ wanted
  | type found wanted => "invalid type: " ++ found.text ++ ", expected " ++ wanted
  | noVariant t => "data did not match any variant of untagged enum " ++ t
  | unknownKind id kind => "Unknown node type '" ++ kind ++ "' on node '" ++ id ++ "'"

end Mismatch

namespace ReadError

def message : ReadError → String
  | flaw f => f.message
  | mismatch m => m.message

end ReadError

end ColorGraph.Json
