import PlatformKnife.Ext4.Cursor
import PlatformKnife.Ext4.Utils

namespace Ext4

open CInt

-- The fields `blocks_per_dind` and `blocks_per_tind`, as `ext4_create_fs_aux_info` computes them.

def FsAuxInfo.blocksPerDind (aux : FsAuxInfo) : Nat :=
  u32 (aux.blocksPerInd * aux.blocksPerInd)

-- `DIV_ROUND_UP` of values of type `unsigned int`.
def divRoundUp (x y : Nat) : Exec Nat :=
  if y = 0 then fault .divideByZero else .ok (u32 (x + y - 1) / y)

section Reserve

open LinkedAllocation

variable (force : Bool) (aux : FsAuxInfo)

variable (alloc : LinkedAllocation)

end Reserve

end Ext4
