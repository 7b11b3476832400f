/-!
The errors of the network code (`kernel/src/net/mod.rs`) that the modelled
functions return.
-/

namespace Waros.Kernel.Net

inductive NetError
  | payloadTooLarge
  | invalidFrame
  | notInitialized
  | initializationFailed (message : List Char)

end Waros.Kernel.Net
