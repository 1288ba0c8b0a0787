import OmegaOsx.MlsDisk.Stateful

/-!
# Sync-aware values
-/

namespace OmegaOsx.MlsDisk

/-- A value of a record. At most one synced and one unsynced value exist at the same time. -/
inductive ValueEx (V : Type)
  | synced (v : V)
  | unsynced (v : V)
  | syncedAndUnsynced (sv usv : V)
  deriving DecidableEq, Repr

namespace ValueEx

variable {V : Type}

/-- The most recent value. -/
def get : ValueEx V → V
  | synced v => v
  | unsynced v => v
  | syncedAndUnsynced _ v => v

/-- Puts a new value; the second component is the value it replaces. -/
def put : ValueEx V → V → ValueEx V × Option V
  | synced v, value => (syncedAndUnsynced v value, none)
  | unsynced v, value => (unsynced value, some v)
  | syncedAndUnsynced sv usv, value => (syncedAndUnsynced sv value, some usv)

end ValueEx

end OmegaOsx.MlsDisk
