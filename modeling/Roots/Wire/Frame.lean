import Roots.Wire.Reader

/-!
# Roots.Wire.Frame

Link frames of `src/frame.rs`: the packet types and the split of a frame body into
its type and payload.
-/

namespace Roots

/-- `FrameType`. -/
inductive FrameType where
  | dummy
  | keepAlive
  | sigReq
  | sigRes
  | announce
  | bloomFilter
  | pathLookup
  | pathNotify
  | pathBroken
  | traffic
deriving DecidableEq

/-- `MAX_MESSAGE_SIZE`. -/
def maxMessageSize : Nat := 65535 * 2

/-- `KEEPALIVE_DELAY`. -/
def keepaliveDelay : Nat := seconds 1

/-- `FrameType::from_byte`. -/
def FrameType.fromByte (b : UInt8) : Except Exit FrameType :=
  match b.toNat with
  | 0 => .ok .dummy
  | 1 => .ok .keepAlive
  | 2 => .ok .sigReq
  | 3 => .ok .sigRes
  | 4 => .ok .announce
  | 5 => .ok .bloomFilter
  | 6 => .ok .pathLookup
  | 7 => .ok .pathNotify
  | 8 => .ok .pathBroken
  | 9 => .ok .traffic
  | _ => .error (.err .invalidLength)

/-- `decode_body`. -/
def decodeBody : Bytes → Except Exit (FrameType × Bytes)
  | [] => .error (.err .invalidLength)
  | b :: payload =>
      if maxMessageSize < payload.length + 1 then .error (.err .invalidLength)
      else do
        let ftype ← FrameType.fromByte b
        return (ftype, payload)

end Roots
