import DebugGuard.Forest.Basic

/-!
# Fresh names

A fresh name is `_base`, `_base2`, `_base3`, … , the first of them that neither stands anywhere in
the tree nor has been handed out before.
-/

namespace DebugGuard

/-- All names that are declared or referred to in the tree of a node. -/
def Forest.namesBelow (f : Forest) (root : Ref) : List String :=
  (f.below root).flatMap fun (i : Nat) => (f.node? i).elim [] Node.ownNames

/-- The names that have been handed out. -/
structure Fresh where
  given : List String := []
  deriving Repr

namespace Fresh

/-- A name without underscores in front and ASCII digits behind; `temp` if nothing is left. -/
def base (name : String) : String :=
  let cs := name.toList.dropWhile (· == '_')
  let cs := (cs.reverse.dropWhile Char.isDigit).reverse
  if cs.isEmpty then "temp" else String.ofList cs

/-- The candidates for a fresh name, counted from one. -/
def candidate (base : String) (n : Nat) : String :=
  if n ≤ 1 then "_" ++ base else "_" ++ base ++ toString n

/-- The first candidate that is not taken.  Among one more candidates than there are taken names,
one is free. -/
def firstFree (base : String) (taken : List String) : String :=
  let free := (List.range' 1 (taken.length + 1)).find? fun n => !taken.contains (candidate base n)
  candidate base (free.getD 1)

/-- Hands out a fresh name for the tree of `root`. -/
def generate (given : Fresh) (f : Forest) (root : Ref) (name : String) : String × Fresh :=
  let fresh := firstFree (base name) (f.namesBelow root ++ given.given)
  (fresh, ⟨fresh :: given.given⟩)

end Fresh

end DebugGuard
