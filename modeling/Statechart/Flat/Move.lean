import Statechart.Chart.Check
import Statechart.Compilation
import Statechart.Flat.Selection
import Statechart.Options

/-!
Moves. A move takes a machine from one leaf to another on an input: it runs what the source does on
the way out, then the transition's effect, then what the target does on the way in. `Chart.moves`
lists the moves of a chart and binds each hook at the place where its action comes into a move.
-/
namespace Statechart

structure Move (S I : Type) where
  source : Path S
  input : I
  target : Path S
  action : Action
  rank : Nat
  label : Option String

variable {S I : Type} [DecidableEq S] [Hashable S] [DecidableEq I] [Hashable I] [Named S] [Named I]

/-- The leaves by their paths. Of several leaves with one path the last one is found. -/
def Leaf.byPath (leaves : List (Leaf S I)) : Std.HashMap (Path S) (Leaf S I) :=
  leaves.foldl (fun index leaf => index.insert leaf.path leaf) {}

def Leaf.move (index : Std.HashMap (Path S) (Leaf S I)) (options : Options) (leaf : Leaf S I)
    (exits : List Action) (candidate : Candidate S I) : Compilation S I (Move S I) :=
  match index[candidate.target]? with
  | none => throw (.unresolvedTarget candidate.target)
  | some target => do
    let effect ← Hook.bindOption candidate.effect
    let entries ← Hook.bindAll target.entries
    return {
      source := leaf.path
      input := candidate.input
      target := candidate.target
      action := .sequence (exits ++ effect.getD .idle :: entries)
      rank := candidate.rank
      label := options.label (leaf.path.arrow candidate.input candidate.target) }

/-- The moves of one leaf. Its exits are bound once for all of them, and before it is known whether
there are any. -/
def Leaf.moves (index : Std.HashMap (Path S) (Leaf S I)) (options : Options) (leaf : Leaf S I) :
    Compilation S I (List (Move S I)) := do
  let exits ← Hook.bindAll leaf.exits
  let winners ← (leaf.winners : Except (Fault S I) _)
  winners.mapM (leaf.move index options exits)

def Leaf.allMoves (leaves : List (Leaf S I)) (options : Options) :
    Compilation S I (List (Move S I)) := do
  let moves ← leaves.mapM (Leaf.moves (Leaf.byPath leaves) options)
  return moves.flatten

def Chart.moves (chart : Chart S I) (root : Fin chart.size) (options : Options) :
    Compilation S I (List (Move S I)) := do
  let _ ← (chart.check root : Except (Fault S I) _)
  let leaves ← (chart.leaves root : Except (Fault S I) _)
  Leaf.allMoves leaves options

end Statechart
