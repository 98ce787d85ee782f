import TwigAlgebra.Pattern.Walk

/-!
# Pruning patterns

Two ways to make a pattern smaller: keep only the path from the root to the first node with a
code, or keep the tree and stop storing what nobody asks for.

## Main definitions

* `Pattern.pruneTo` — keeps only the path to a code.
* `Pattern.storeOnly` — keeps what is stored only under the given tags.
-/

namespace TwigAlgebra.Pattern

/-- Makes the child of `e` the only child of `h`. -/
def keepOnly (p : Pattern) (h : Handle) (e : Edge) : Option Pattern := do
  let p ← p.clearEdges h
  let p ← p.update h fun n => { n with edges := n.edges ++ [e] }
  p.update e.child fun n => { n with parent := some h }

/-- Prunes below the edges of `h` in turn until `visit` finds the goal, and keeps only that edge;
without a find the node loses every child. -/
def pruneEdges (visit : Handle → Pattern → Option (Bool × Pattern)) (h : Handle) :
    List Edge → Pattern → Option (Bool × Pattern)
  | [], p => do return (false, ← p.clearEdges h)
  | e :: es, p => do
    let (found, p) ← visit e.child p
    if found then return (true, ← p.keepOnly h e) else pruneEdges visit h es p

/-- Prunes the subtree of `h` to the path from `h` to the first node with the code. -/
def pruneFrom (code : Code) : Nat → Handle → Pattern → Option (Bool × Pattern)
  | 0, _, _ => none
  | fuel + 1, h, p => do
    let n ← p.node? h
    if n.code = code then return (true, ← p.clearEdges h)
    else pruneEdges (pruneFrom code fuel) h n.edges p

/-- Removes everything but the path from the root to the first node with the code, and answers
whether there is one; if not, only the root stays. -/
def pruneTo (p : Pattern) (code : Code) : Option (Bool × Pattern) := do
  let (found, p) ← pruneFrom code p.size p.root p
  return (found, p.forget)

/-- Clears what is stored in the subtree of `h`, except under the given tags. -/
def storeOnlyFrom (tags : List String) : Nat → Handle → Pattern → Option Pattern
  | 0, _, _ => none
  | fuel + 1, h, p => do
    let n ← p.node? h
    let p ← if tags.contains n.tag then some p else p.update h Node.cleared
    let p ← n.edges.foldlM (fun p e => storeOnlyFrom tags fuel e.child p) p
    return p.forget

/-- Clears what is stored in a subtree, except under the given tags. -/
def storeOnly (p : Pattern) (h : Handle) (tags : List String) : Option Pattern :=
  storeOnlyFrom tags p.size h p

end TwigAlgebra.Pattern
