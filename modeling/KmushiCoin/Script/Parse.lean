import KmushiCoin.Primitives.Wire

/-!
# KmushiCoin.Script.Parse

**Scripts as byte strings** (`CScript`): reading one instruction after the other.

* An iterator into a script is the rest of the script from there. `getOp` also says where the
  iterator stands after an instruction that is cut off: some callers go on from there.
* An opcode is its byte. The names of the bytes stand where they are used.
-/

namespace KmushiCoin

open Codec

namespace Script

/-! ### Reading instructions -/

/-- The size field of a push: `n` little-endian bytes. -/
def getPushSize (n : Nat) (pc : Script) : Except Script (Nat × Script) :=
  if pc.length < n then .error pc else .ok (ofLE (pc.take n), pc.drop n)

/-- `GetOp2`: the opcode, its operand and the rest, or where the iterator stands on failure. -/
def getOp : Script → Except Script (UInt8 × Bytes × Script)
  | [] => .error []
  | opcode :: pc =>
    -- OP_PUSHDATA4 is the last opcode with an operand
    if opcode.toNat ≤ 0x4e then do
      let (nSize, pc) ←
        if opcode.toNat < 0x4c then .ok (opcode.toNat, pc)
        else if opcode.toNat = 0x4c then getPushSize 1 pc
        else if opcode.toNat = 0x4d then getPushSize 2 pc
        else getPushSize 4 pc
      if pc.length < nSize then .error pc else .ok (opcode, pc.take nSize, pc.drop nSize)
    else .ok (opcode, [], pc)

end Script

end KmushiCoin
