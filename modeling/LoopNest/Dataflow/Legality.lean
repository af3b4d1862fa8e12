import LoopNest.Dataflow.Check
import LoopNest.Tree.Initial

namespace LoopNest

def Dataflow.ofProgram (p : Program) : Legal Dataflow := do
  let roots ← p.nesting
  let k ← (Kernel.ofTree p roots).mapRefusal .numbering
  Dataflow.ofKernel p k

structure Context where
  program : Program
  recorded : Thunk (Legal Dataflow)
  recorded_get : recorded.get = Dataflow.ofProgram program

namespace Context

def ofProgram (p : Program) : Context where
  program := p
  recorded := Thunk.mk fun _ => Dataflow.ofProgram p
  recorded_get := rfl

def checkLegal (c : Context) (roots : List Node) : Legal Unit := do
  let d ← c.recorded.get
  let k ← (Kernel.ofTree c.program roots).mapRefusal .numbering
  d.check c.program k

end Context

end LoopNest
