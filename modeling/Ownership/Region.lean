/-!
# Regions and custody

A reference type says in which *region* its pointee lives, and so who
lets go of it. A variable is in *custody* of what its type makes it
responsible for when its scope ends.
-/

namespace Ownership

/-- How a reference holds its pointee. -/
inductive Region where
  /-- The only holder; releasing it frees the pointee. -/
  | owning
  /-- One of several holders, counted in front of the pointee. -/
  | counted
  /-- No holder at all. -/
  | borrowed
  deriving DecidableEq, Repr

/-- What a variable has to let go of at the end of its scope. -/
inductive Custody where
  | none
  /-- A reference that is the only holder. -/
  | owning
  /-- A counted reference. -/
  | counted
  /-- A record with such references inside. -/
  | embedded
  deriving DecidableEq, Repr, Inhabited

namespace Custody

def needsRelease (c : Custody) : Bool := c ≠ .none

end Custody

namespace Region

/-- The keyword in front of a reference type. -/
def keyword : Region → String
  | .owning => "own"
  | .counted => "rc"
  | .borrowed => "borrow"

/-- The custody of a variable that holds a reference of this region. -/
def custody : Region → Custody
  | .owning => .owning
  | .counted => .counted
  | .borrowed => .none

/-- Whether letting go of such a reference may free its pointee. -/
def isOwning (r : Region) : Bool := r.custody.needsRelease

end Region

end Ownership
