import Backtrack.Search.Match

/-!
# Acceptance

Ready-made continuations: which remainders they accept, with a record of all that were offered to them.
-/

set_option autoImplicit false

namespace Backtrack

inductive Acceptance (σ : Type) where
  | all
  | none
  /-- Nothing is left over. -/
  | exhausted
  | equals (s : Input)
  | differs (s : Input)
  | startsWith (s : Input)
  /-- The remainder has this many bytes. -/
  | size (n : Nat)
  /-- From the given call on, whatever the remainder. -/
  | fromCall (n : Nat)
  /-- Some beginning of the remainder matches a rule. -/
  | rule (r : Rule σ)

/-- The remainders that a continuation was given, newest first, and their number. -/
structure Offered where
  total : Nat
  rests : List Input

namespace Offered

def empty : Offered := ⟨0, []⟩

def add (offered : Offered) (rest : Input) : Offered := ⟨offered.total + 1, rest :: offered.rests⟩

def toList (offered : Offered) : List Input := offered.rests.reverse

end Offered

namespace Acceptance

variable {σ : Type}

/-- Decides on a remainder, given which call of the continuation this is. -/
def judge (call : Nat) (rest : Input) : Acceptance σ → StateM σ Bool
  | all => return true
  | none => return false
  | exhausted => return rest.isEmpty
  | equals s => return rest == s
  | differs s => return rest != s
  | startsWith s => return s.isPrefixOf rest
  | size n => return bytes rest == n
  | fromCall n => return n ≤ call
  | rule r => r.isMatch rest

/-- The continuation that decides in this way and keeps what it is given. -/
def acceptor (a : Acceptance σ) : Acceptor Offered σ := fun rest (offered, shared) =>
  let offered := offered.add rest
  let (accepted, shared) := a.judge offered.total rest shared
  (accepted, offered, shared)

end Acceptance

end Backtrack
