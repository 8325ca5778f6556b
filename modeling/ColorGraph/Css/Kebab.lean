import ColorGraph.Text.LowerCase
/-!
Names in kebab case: lower case, with one hyphen for each run of spaces and underscores. Main
statement: only the empty name has an empty one.
-/

set_option autoImplicit false

namespace ColorGraph.Css

def isSeparator (c : Char) : Bool :=
  c == ' ' || c == '_'

/-- `inRun` after a separator, whose hyphen is then written already. -/
def kebabChars (inRun : Bool) : List Char → List Char
  | [] => []
  | c :: cs =>
    if isSeparator c then
      if inRun then kebabChars true cs else '-' :: kebabChars true cs
    else Text.lowerCase c ++ kebabChars false cs

def kebab (name : String) : String :=
  String.ofList (kebabChars false name.toList)

theorem kebabChars_eq_nil_iff (cs : List Char) : kebabChars false cs = [] ↔ cs = [] := by
  cases cs with
  | nil => simp [kebabChars]
  | cons c cs =>
    simp only [kebabChars, Bool.false_eq_true, if_false, reduceCtorEq, iff_false]
    split
    · simp
    · simp [Text.lowerCase_ne_nil]

end ColorGraph.Css
