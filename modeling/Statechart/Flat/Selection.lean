import Statechart.Flat.Leaf
import Std.Data.HashMap

/-!
Selection. Of the candidates that a leaf takes over for one input, the one declared deepest wins.
The candidates are gone through once; each input keeps its best candidate so far and whether another
one has the same rank. An index tells where the favourite of an input stands.
-/
namespace Statechart

variable {S I : Type}

/-- The best candidate so far for its input, and whether it shares its rank with another one. -/
structure Favourite (S I : Type) where
  best : Candidate S I
  tied : Bool

def Favourite.meet (favourite : Favourite S I) (candidate : Candidate S I) : Favourite S I :=
  if favourite.best.rank < candidate.rank then ⟨candidate, false⟩
  else if candidate.rank = favourite.best.rank then { favourite with tied := true }
  else favourite

variable [DecidableEq I] [Hashable I]

structure Ballot (S I : Type) [DecidableEq I] [Hashable I] where
  favourites : Array (Favourite S I) := #[]
  byInput : Std.HashMap I Nat := {}

def Ballot.enter (ballot : Ballot S I) (candidate : Candidate S I) : Ballot S I :=
  match ballot.byInput[candidate.input]? with
  | none => {
      favourites := ballot.favourites.push ⟨candidate, false⟩
      byInput := ballot.byInput.insert candidate.input ballot.favourites.size }
  | some place => { ballot with favourites := ballot.favourites.modify place (·.meet candidate) }

def Leaf.ballot (leaf : Leaf S I) : Ballot S I := leaf.candidates.foldl Ballot.enter {}

def Leaf.winners (leaf : Leaf S I) : Except (Fault S I) (List (Candidate S I)) :=
  leaf.ballot.favourites.toList.mapM fun favourite =>
    if favourite.tied then
      .error (.ambiguous leaf.path favourite.best.input favourite.best.rank)
    else .ok favourite.best

end Statechart
