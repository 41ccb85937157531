import EscapeAnalysis.Merge.Desc

/-!
# Webs

Merges nested in one another form a web. Webs are the connected components of the nesting relation,
and a web lists nested merges before those they are nested in, unless nesting runs in a circle.
-/

namespace EscapeAnalysis

structure Web where
  phis : List InstId
  obstacle : Option Obstacle
deriving Inhabited

namespace Merges

def links (m : Merges) : List (InstId × InstId) :=
  m.values.flatMap fun d => d.children.flatMap fun c => [(d.phi, c), (c, d.phi)]

def neighbors (links : List (InstId × InstId)) (phi : InstId) : List InstId :=
  links.filterMap fun (a, b) => if a = phi then some b else none

def webOf (m : Merges) (members : List InstId) : Web :=
  let w := walkFrom m.keys m.children members
  { phis := w.closed.reverse
    obstacle := if w.cyclic then some .loopCarried else none }

/-- The webs, and the merges they hold. -/
def addWeb (m : Merges) (links : List (InstId × InstId)) (acc : List Web × List InstId)
    (root : InstId) : List Web × List InstId :=
  let (webs, taken) := acc
  if root ∈ taken then acc
  else
    let members := flood .newestFirst m.keys (neighbors links) [root] (root :: taken)
    (webs ++ [m.webOf members], members ++ taken)

/-- The webs of the given merges, in the order of their first members. -/
def webs (m : Merges) (candidates : List InstId) : List Web :=
  (candidates.foldl (m.addWeb m.links) ([], [])).1

end Merges

end EscapeAnalysis
