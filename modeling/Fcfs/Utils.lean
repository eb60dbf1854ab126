import Mathlib.Data.List.Basic
import Mathlib.Algebra.Order.Group.Int

/-! # `lib/utils.c` -/

namespace Fcfs

/-- `to_blk_cnt`: `ceil(data_len / (double)lblk_sz)`. -/
def toBlkCnt (dataLen : ℤ) (lblkSz : ℕ) : ℤ := -(-dataLen / lblkSz)

/-- The scan of `get_parrent_path` down from index `p_len`; `none` when it leaves the string. -/
def parrentFrom (path : List UInt8) : ℕ → Option ℕ
  | 0 => if path.getD 0 0 = 47 then some 0 else none
  | n + 1 => if path.getD (n + 1) 0 = 47 then some (n + 1) else parrentFrom path n

/-- `get_parrent_path`: the index of the last `/`. -/
def getParrentPath (path : List UInt8) : Option ℕ := parrentFrom path path.length

end Fcfs
