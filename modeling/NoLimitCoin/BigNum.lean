import NoLimitCoin.Types

/-!
# Targets

The compact form of a target (`nBits`) and the conversions of `bignum.h` the chain rules use.
A `CBigNum` is an `Int`; its division truncates, as `BN_div` does.
-/

namespace NoLimitCoin

namespace CBigNum

/-- `SetCompact`: a size byte, then the three top bytes of a magnitude with its sign bit. -/
def setCompact (nCompact : Nat) : Int :=
  let nSize := nCompact / 2 ^ 24
  let mantissa := nCompact % 2 ^ 23
  let magnitude : Nat :=
    if nSize ≤ 3 then mantissa / 2 ^ (8 * (3 - nSize)) else mantissa * 2 ^ (8 * (nSize - 3))
  if (nCompact / 2 ^ 23) % 2 = 1 then -(magnitude : Int) else (magnitude : Int)

/-- `GetCompact`; the size is shifted out of its 32 bits when it does not fit into a byte. -/
def getCompact (bn : Int) : Nat :=
  let n := bn.natAbs
  if n = 0 then 0
  else
    let nSize := Nat.log2 n / 8 + 1
    -- the sign needs a byte of its own when the top bit of the magnitude is taken
    let nSize := if (Nat.log2 n) % 8 = 7 then nSize + 1 else nSize
    let top := if nSize ≤ 3 then n * 2 ^ (8 * (3 - nSize)) else n / 2 ^ (8 * (nSize - 3))
    (nSize * 2 ^ 24 + top + if bn < 0 then 2 ^ 23 else 0) % 2 ^ 32

/-- `getuint64`: the low 64 bits of the magnitude. -/
def getUint64 (bn : Int) : Nat := bn.natAbs % 2 ^ 64

/-- `getuint256`: the low 256 bits of the magnitude. -/
def getUint256 (bn : Int) : Uint256 := bn.natAbs % 2 ^ 256

end CBigNum

/-- `bnProofOfStakeLimit`. -/
def bnProofOfStakeLimit : Int := (2 ^ 256 - 1) / 2 ^ 20

end NoLimitCoin
