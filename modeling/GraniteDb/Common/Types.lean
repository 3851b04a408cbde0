/- Identifiers shared by every subsystem and the transaction states. -/

import Mathlib.Data.Fin.Basic

namespace GraniteDb.Common.Types

def pageSize : Nat := 8192

structure PageId where
  relationId : Nat
  pageNo : Nat
  deriving DecidableEq

structure RID where
  pageNo : Nat
  slotNo : Nat
  deriving DecidableEq

/-- `TransactionState`. The log stores the state as one byte and reads any byte back,
so a state may also be one of the codes that have no enumerator. -/
inductive TransactionState
  | active
  | waiting
  | aborting
  | committed
  | aborted
  | unnamed (code : Fin 251)
  deriving DecidableEq

end GraniteDb.Common.Types
