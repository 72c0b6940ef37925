import Mmdata.Image.Builder
import Mmdata.Proofs.ShrinkFit

namespace Mmdata.Proofs
open Lib Malloc Image

section

variable {D : Trap → Prop} {K : Objects} {E : Rows} {parses : List UInt8 → Prop}
  {source : String → Option (List (List UInt8))} {r : Reply} {o : DataImageBuildOptions}
  {b : DataImageBuilder} {w w' : World} {σ : State} {lines : List (List UInt8)} {size : Int}

end

end Mmdata.Proofs
