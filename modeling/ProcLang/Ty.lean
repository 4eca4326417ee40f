/-!
# Types of the source language
-/

namespace ProcLang

/-- The type of a value in a program. -/
inductive Ty where
  | integer
  | float
  | bool
  | string
deriving DecidableEq, Inhabited

namespace Ty

/-- The name of the type in programs and messages. -/
def name : Ty → String
  | integer => "integer"
  | float => "float"
  | bool => "bool"
  | string => "string"

/-- Whether the type has arithmetic. -/
def isNumeric : Ty → Bool
  | integer | float => true
  | bool | string => false

/-- Whether a value of the first type can stand where one of the second is wanted. Apart from the
type itself, an integer can stand for a float. -/
def fits : Ty → Ty → Bool
  | integer, float => true
  | source, target => source == target

end Ty

end ProcLang
