import Harp.Core.StoreCrash
import Harp.Device.RefsetAtomic
import Harp.Device.Retention

/-!
This module contains the contract of the live ref: a request that changes it has gone through the
flush, the compare-and-swap, the engine gate and the load.
-/

namespace Harp

open FileTree

section Look

variable {s : Store} {r : Ref} {io : WriteIo} {t : RefTree} {dirs q : List Comp}

end Look

section Respond

variable {d : Device} {body : Option Bytes} {io : RefsetIo}

variable {q : RefsetReq} {newh : Hash} {guards : List Guard} {r : Ref} {pval : Grid}

end Respond

section Alias

end Alias

end Harp
