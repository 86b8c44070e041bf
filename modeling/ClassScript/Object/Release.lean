/-!
# Release

Numbered things own one another, and some are owned from outside as well.  What has no owner is
released, which leaves what it owned with one owner less, and so on until all that is left has
owners.  `remaining` counts the owners that each thing has in the end.  `reaches` finds a line of owners
from outside to a thing, which is often enough to know that it is left.
-/

namespace ClassScript.Release

/-- The number of owners that are counted for a thing. -/
def countOf (counts : Array Nat) (i : Nat) : Nat := counts[i]?.getD 0

/-- One owner more for each of these things. -/
def add (counts : Array Nat) (things : List Nat) : Array Nat :=
  things.foldl (fun counts i => counts.modify i (· + 1)) counts

/-- One owner less for each of these things. Those that have lost their last one are put in front of
`free`. -/
def withdraw (counts : Array Nat) (free : List Nat) : List Nat → Array Nat × List Nat
  | [] => (counts, free)
  | i :: rest =>
    let last := counts[i]? == some 1
    withdraw (counts.modify i (· - 1)) (if last then i :: free else free) rest

section

variable (owned : Nat → List Nat)

/-- The number of owners of each of `n` things, where `roots` are owned from outside. -/
def census (n : Nat) (roots : List Nat) : Array Nat :=
  (List.range n).foldl (fun counts i => add counts (owned i)) (add (Array.replicate n 0) roots)

/-- Releases the things in `free`, and at most `n` in all. -/
def settle : Nat → List Nat → Array Nat → Array Nat
  | 0, _, counts => counts
  | _, [], counts => counts
  | n + 1, i :: free, counts =>
    let (counts, free) := withdraw counts free (owned i)
    settle n free counts

/-- The number of owners that each of `n` things has once everything without an owner is released. -/
def remaining (n : Nat) (roots : List Nat) : Array Nat :=
  let counts := census owned n roots
  settle owned n ((List.range n).filter fun i => counts[i]? == some 0) counts

/-- Whether a line of owners leads from a thing in `work` to the thing `i`, through things not seen
before and not more than `n` of them. -/
def reaches (i : Nat) : Nat → List Nat → Array Bool → Bool
  | 0, _, _ => false
  | n + 1, work, seen =>
    match work.dropWhile fun j => seen[j]?.getD true with
    | [] => false
    | j :: work => j = i || reaches i n (owned j ++ work) (seen.setIfInBounds j true)

end

end ClassScript.Release
