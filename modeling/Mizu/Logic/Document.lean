import Mizu.Logic.Ast

/-!
# A parsed document

The parts of a parsed document that the load-time checks and the worker use: the events of its
nodes in traversal order, the root timers, the functions and the computed bindings. `functions` is
a hash map, so the order in which it is iterated is given beside it.
-/

namespace Mizu

inductive EventBlock where
  | click (action : Action)
  | submit (action : Action)

def EventBlock.action : EventBlock → Action
  | click action => action
  | submit action => action

/-- A node of the layout tree: its id and its events, in the order the event map is iterated. -/
structure MizuNode where
  id : Nat
  events : List EventBlock

/-- A number of milliseconds, or a variable that has it. -/
inductive TimerInterval where
  | millis (ms : Nat)
  | var (varName : String)
  deriving DecidableEq, Repr

/-- A root timer. Its interval is read by the window only. -/
structure RootTimer where
  action : Action

structure Document where
  dom : List MizuNode
  timers : List RootTimer
  functions : FunctionTable
  functionOrder : List Symbol
  comps : List ComputedBinding
  interner : Interner

namespace Document

/-- Every event action of the layout tree, in traversal order. -/
def eventActions (d : Document) : List Action := d.dom.flatMap fun n => n.events.map (·.action)

def timerActions (d : Document) : List Action := d.timers.map (·.action)

def actions (d : Document) : List Action := d.eventActions ++ d.timerActions

end Document

end Mizu
