/-! The levels of the remarks that an engine writes into its journal. -/
namespace DurableFlow

inductive Level where
  | debug | info | warning | error
  deriving DecidableEq, Repr

namespace Level

def word : Level → String
  | debug => "DEBUG"
  | info => "INFO"
  | warning => "WARNING"
  | error => "ERROR"

def ofWord? (s : String) : Option Level := [debug, info, warning, error].find? (·.word = s)

def rank : Level → Nat
  | debug => 0
  | info => 1
  | warning => 2
  | error => 3

end Level

end DurableFlow
