/-!
# Settings of the pass
-/

namespace EscapeAnalysis

structure Settings where
  enabled : Bool := true
  reduceMerges : Bool := true
  eliminateAllocations : Bool := true
  eliminateLocks : Bool := true
  optimizePtrCompare : Bool := true
  /-- Longer arrays are never replaced by scalars. -/
  arraySizeLimit : Nat := 64
  fieldsLimit : Nat := 512
  nodeBudget : Nat := 80000
  stepBudget : Nat := 1000000
  graphIterLimit : Nat := 20
  maxRounds : Nat := 4
  /-- Check the result, and give up if it is not well formed. -/
  verify : Bool := true
deriving DecidableEq, Inhabited

end EscapeAnalysis
