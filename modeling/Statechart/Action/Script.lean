import Statechart.Action

/-!
Scripts over named slots. A script defines hooks, binds them to actions, composes actions and runs
them; a slot may be written again at any time without touching what was made from its old content.
-/
namespace Statechart.Script

inductive Step where
  | fixed (hook : String) (text : String)
  | lazy (hook : String) (text : String)
  /-- Writes the hook of another slot, which shares its counter. -/
  | copy (hook source : String)
  | bind (action hook : String)
  | idle (action : String)
  | sequence (action : String) (parts : List String)
  | run (action : String)
  deriving DecidableEq, Repr

structure Bench where
  hooks : Std.HashMap String Hook := {}
  actions : Std.HashMap String Action := {}
  journal : Journal := {}
  fresh : Nat := 0

namespace Bench

def step? (bench : Bench) : Step → Option Bench
  | .fixed slot text => some { bench with hooks := bench.hooks.insert slot (.fixed text) }
  | .lazy slot text =>
    some { bench with
      hooks := bench.hooks.insert slot (.lazy bench.fresh text)
      fresh := bench.fresh + 1 }
  | .copy slot source => do
    let hook ← bench.hooks[source]?
    return { bench with hooks := bench.hooks.insert slot hook }
  | .bind slot source => do
    let hook ← bench.hooks[source]?
    let (action, journal) := hook.bind bench.journal
    return { bench with actions := bench.actions.insert slot action, journal }
  | .idle slot => some { bench with actions := bench.actions.insert slot .idle }
  | .sequence slot parts => do
    let actions ← parts.mapM fun part => bench.actions[part]?
    return { bench with actions := bench.actions.insert slot (.sequence actions) }
  | .run slot => do
    let action ← bench.actions[slot]?
    return { bench with journal := action.run bench.journal }

end Bench

/-- What each step of a script writes to the journal; fails where a step fails. -/
def entries? (bench : Bench) : List Step → Option (List (List Entry))
  | [] => some []
  | step :: steps => do
    let bench ← bench.step? step
    let (written, journal) := bench.journal.take
    let later ← entries? { bench with journal } steps
    return written :: later

end Statechart.Script
