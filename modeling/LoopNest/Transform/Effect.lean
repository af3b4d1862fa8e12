import LoopNest.Transform.Fuse
import LoopNest.Transform.Interchange
import LoopNest.Transform.Split

namespace LoopNest

def Transformation.applyTo (p : Program) (roots : List Node) : Transformation → Transformed (List Node)
  | tile dim factor => LoopNest.tile roots dim factor
  | interchange first second => LoopNest.interchange roots first second
  | fuse first second dim => LoopNest.fuse p roots first second dim
  | unroll dim factor => LoopNest.unroll roots dim factor
  | parallelize dim => LoopNest.parallelize roots dim
  | vectorize dim factor => LoopNest.vectorize roots dim factor

end LoopNest
