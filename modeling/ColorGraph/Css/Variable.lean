/-!
Custom properties and the rule block that declares them.
-/

set_option autoImplicit false

namespace ColorGraph.Css

structure Variable where
  name : String
  value : String
deriving DecidableEq, Repr

namespace Variable

def of (name value : String) : Variable :=
  ⟨"--" ++ name, value⟩

def declaration (v : Variable) : String :=
  v.name ++ ": " ++ v.value ++ ";"

end Variable

def stylesheet (vs : List Variable) (selector : String) : String :=
  let body :=
    if vs.isEmpty then "  /* Add nodes to generate CSS variables */"
    else "\n".intercalate (vs.map fun v => "  " ++ v.declaration)
  selector ++ " \x7b\n" ++ body ++ "\n\x7d"

end ColorGraph.Css
