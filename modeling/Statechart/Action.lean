import Std.Data.HashMap

/-!
Hooks, actions and the journal. A hook is attached to a state or a transition of a chart; binding it
yields an action, and running an action writes to the journal. Binding a lazy hook is itself written
down, with the number of times that its counter has been asked.
-/
namespace Statechart

inductive Entry where
  | said (text : String)
  | bound (text : String) (count : Nat)
  | ran (text : String) (count : Nat)
  deriving DecidableEq, Repr

def Entry.text : Entry → String
  | said text => text
  | bound text count => "bind " ++ text ++ "@" ++ toString count
  | ran text count => text ++ "@" ++ toString count

/-- What was written so far, and how often each counter was asked. -/
structure Journal where
  entries : Array Entry := #[]
  counts : Std.HashMap Nat Nat := {}

namespace Journal

def count (journal : Journal) (counter : Nat) : Nat := journal.counts.getD counter 0

def write (journal : Journal) (entry : Entry) : Journal :=
  { journal with entries := journal.entries.push entry }

def take (journal : Journal) : List Entry × Journal :=
  (journal.entries.toList, { journal with entries := #[] })

end Journal

inductive Action where
  | idle
  | write (entry : Entry)
  | both (first second : Action)

namespace Action

def entries : Action → List Entry
  | idle => []
  | write entry => [entry]
  | both first second => first.entries ++ second.entries

def run : Action → Journal → Journal
  | idle, journal => journal
  | write entry, journal => journal.write entry
  | both first second, journal => second.run (first.run journal)

def sequence : List Action → Action
  | [] => idle
  | [action] => action
  | action :: actions => both action (sequence actions)

end Action

/-- An action not yet bound. A lazy hook numbers its bindings by a counter, which
hooks may share. -/
inductive Hook where
  | fixed (text : String)
  | lazy (counter : Nat) (text : String)
  deriving DecidableEq, Repr

def Hook.bind : Hook → StateM Journal Action
  | fixed text => return .write (.said text)
  | lazy counter text => modifyGet fun journal =>
    let count := journal.count counter + 1
    (.write (.ran text count),
      { entries := journal.entries.push (.bound text count)
        counts := journal.counts.insert counter count })

def Hook.bindAll (hooks : List Hook) : StateM Journal (List Action) := hooks.mapM Hook.bind

def Hook.bindOption : Option Hook → StateM Journal (Option Action)
  | none => return none
  | some hook => some <$> hook.bind

end Statechart
