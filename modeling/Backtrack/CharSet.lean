import Backtrack.Text.Quoted
import Backtrack.Text.Structured

/-!
# Character sets

A set of characters, kept as its members in strictly ascending order. There is one such list for each set, so
sets are equal exactly when they have the same members, and membership is a binary search. As JSON a set is the
string of its members, and any string may be read as a set. How JSON writes and reads a string is left to a library.
-/

namespace Backtrack

structure CharSet where
  members : Array Char
  ascending : members.toList.Pairwise (· < ·)
  deriving DecidableEq

namespace CharSet

/-- Puts a character at its place in an ascending list, unless it is there already. -/
def insertAscending (c : Char) : List Char → List Char
  | [] => [c]
  | d :: ds =>
    if c < d then c :: d :: ds
    else if d < c then d :: insertAscending c ds
    else d :: ds

theorem mem_insertAscending {c x : Char} {ds : List Char} :
    x ∈ insertAscending c ds ↔ x = c ∨ x ∈ ds := by
  induction ds with
  | nil => simp [insertAscending]
  | cons d ds ih =>
    unfold insertAscending
    split
    · simp
    · rename_i hcd
      split
      · simp [ih, or_left_comm]
      · rename_i hdc
        obtain rfl : c = d := Char.le_antisymm (Char.not_lt.mp hdc) (Char.not_lt.mp hcd)
        simp

theorem pairwise_insertAscending {c : Char} {ds : List Char} (h : ds.Pairwise (· < ·)) :
    (insertAscending c ds).Pairwise (· < ·) := by
  induction ds with
  | nil => simp [insertAscending]
  | cons d ds ih =>
    obtain ⟨hd, hds⟩ := List.pairwise_cons.mp h
    unfold insertAscending
    split
    · rename_i hcd
      refine List.pairwise_cons.mpr ⟨fun x hx => ?_, h⟩
      rcases List.mem_cons.mp hx with rfl | hx
      · exact hcd
      · exact Char.lt_trans hcd (hd x hx)
    · split
      · rename_i hdc
        refine List.pairwise_cons.mpr ⟨fun x hx => ?_, ih hds⟩
        rcases mem_insertAscending.mp hx with rfl | hx
        · exact hdc
        · exact hd x hx
      · exact h

/-- The set of the characters of a list, whatever their order and number. -/
def ofList (cs : List Char) : CharSet where
  members := (cs.foldr insertAscending []).toArray
  ascending := by
    induction cs with
    | nil => simp
    | cons c cs ih => exact pairwise_insertAscending (by simpa using ih)

def ofString (s : String) : CharSet := ofList s.toList

def ofArray (cs : Array Char) : CharSet := ofList cs.toList

def ofVector {n : Nat} (cs : Vector Char n) : CharSet := ofArray cs.toArray

def toList (set : CharSet) : List Char := set.members.toList

/-- The members as one string, in ascending order. -/
def toString (set : CharSet) : String := String.ofList set.toList

def size (set : CharSet) : Nat := set.members.size

def isEmpty (set : CharSet) : Bool := set.members.isEmpty

/-- Looks for `c` in the part `[low, high)` of an ascending array, halving it at each step. -/
def search (members : Array Char) (c : Char) (low high : Nat) (bound : high ≤ members.size) : Bool :=
  if h : low < high then
    let middle := (low + high) / 2
    let d := members[middle]
    if d < c then search members c (middle + 1) high bound
    else if c < d then search members c low middle (by omega)
    else true
  else false
termination_by high - low

def contains (set : CharSet) (c : Char) : Bool := search set.members c 0 set.members.size (Nat.le_refl _)

def toJson (write : String → String) (set : CharSet) : String := write set.toString

def ofJson? (read : String → Option String) (t : String) : Option CharSet := (read t).map ofString

/-- The quoted members, as rules show the set. -/
def display (set : CharSet) : String := Text.quoteString set.toString

def debug (set : CharSet) : String := Text.tuple "CharSet" [set.display]

theorem mem_toList_ofList {c : Char} {cs : List Char} : c ∈ (ofList cs).toList ↔ c ∈ cs := by
  induction cs with
  | nil => simp [ofList, toList]
  | cons d ds ih =>
    have : (ofList (d :: ds)).toList = insertAscending d (ofList ds).toList := by simp [ofList, toList]
    simp [this, mem_insertAscending, ih]

end CharSet

end Backtrack
