/-!
What may be wrong with a text that is read: a symbol, a file of facts, or a ground program.
-/

namespace StablePlan

inductive ReadError where
  | header
  | malformed (line : Nat) (text : String)
  | unsupported (line kind : Nat)
  | symbol (text : String)
  deriving DecidableEq

namespace ReadError

def message : ReadError → String
  | .header => "missing or unsupported aspif header"
  | .malformed line text => "line " ++ toString line ++ ": malformed statement `" ++ text ++ "`"
  | .unsupported line kind =>
    "line " ++ toString line ++ ": unsupported aspif statement type " ++ toString kind
  | .symbol text => "invalid symbol `" ++ text ++ "`"

end ReadError

end StablePlan
