import Backtrack.Config.Basic
import Backtrack.Rule.Outcome

/-!
# Outcomes of configs

What a config means, read directly and with its sequences and alternatives as wide as they are written: the outcomes
on an input in the order of preference. A set accepts the characters of its string in whatever order they stand
there, and a literal is taken at once.
-/

set_option autoImplicit false

namespace Backtrack.Config

mutual

/-- The outcomes in the order in which they are preferred. -/
def offers : Config → Input → List Outcome
  | any, s => Outcome.ofChar (fun _ => true) s
  | oneOf set, s => Outcome.ofChar (fun c => decide (c ∈ set.toList)) s
  | val value, s => if value.toList.isPrefixOf s then [.rest (s.drop value.length)] else []
  | empty, s => [.rest s]
  | .end, s => if s.isEmpty then [.done] else []
  | optional c, s => c.offers s ++ [.rest s]
  | many c, s => Outcome.ofRepetition c.offers s
  | oneOrMore c, s => (c.offers s).flatMap (Outcome.followedBy (Outcome.ofRepetition c.offers))
  | eof c, s => (c.offers s).flatMap (Outcome.followedBy fun t => if t.isEmpty then [.done] else [])
  | sequence cs, s => offersInTurn cs s
  | alternative cs, s => offersOfAny cs s

/-- The outcomes of configs read one after another. -/
def offersInTurn : List Config → Input → List Outcome
  | [], s => [.rest s]
  | c :: cs, s => (c.offers s).flatMap (Outcome.followedBy (offersInTurn cs))

/-- The outcomes of each config, those of the earlier ones first. -/
def offersOfAny : List Config → Input → List Outcome
  | [], _ => []
  | c :: cs, s => c.offers s ++ offersOfAny cs s

end

end Backtrack.Config
