import MuchPIR.QueryDigits
import MuchPIR.Retrieval

namespace MuchPIR
open Prog Server
set_option autoImplicit true

section Digit

variable {n D i : Nat}

end Digit

variable {S : Seal} {bfvDefault : List Nat} {keygen : S.KeyGenerator}

end MuchPIR
