import OpcodeRecovery.Bytes
import OpcodeRecovery.MethodKey

/-!
Method streams: the plain bytes of a virtualized method, under the key they were stored
with. A stream is what an archive yields and what the decoder reads.
-/

namespace OpcodeRecovery

/-- The plain bytes of a method, under the key they were stored with. -/
structure Stream where
  key : MethodKey
  data : Bytes
  deriving DecidableEq, Repr

end OpcodeRecovery
