import Shiroe.Memory.Service
import Shiroe.Work.Compiler

/-!
# Budgets

`execution/budget.py`: what a supervisor has charged so far, and whether a projection would exceed
a cap.  Tokens are integers and are counted here; a cost is a float, and of the costs only the list
is kept.
-/

namespace Shiroe

open Act

variable (H : Host)

/-- `BudgetTracker` with caps on tokens; a cap of `0` is none. -/
structure BudgetTracker where
  tokensInputMax : ℕ := 0
  tokensOutputMax : ℕ := 0
  /-- The costs charged. -/
  usdSpent : List Json := []
  tokensInputSpent : ℤ := 0
  tokensOutputSpent : ℤ := 0
  deriving DecidableEq

/-- The arithmetic of costs, in floats: `self.usd_max and self.usd_spent + cost > self.usd_max` for
the costs charged and one more. -/
abbrev UsdBurst := List Json → Json → Bool

/-- `int(x)`. -/
def pyIntOf (x : Json) : Except Exc ℤ := versionOf x

/-- `int(d.get(k, 0) or 0)`. -/
def tokens (d : Json) (k : String) : Except Exc ℤ := pyIntOf ((d.getD k (.int 0)).orElse (.int 0))

/-- `float(d.get("cost_usd", 0.0) or 0.0)`. -/
def costUsd (d : Json) : Except Exc Json :=
  pyFloat H ((d.getD "cost_usd" zeroFloat).orElse zeroFloat)

/-- One axis of `would_exceed`: a cap that is set and that the spending would pass. -/
def exceeds (cap : ℕ) (spent projected : ℤ) : Bool := cap ≠ 0 && (cap : ℤ) < spent + projected

namespace BudgetTracker

variable (b : BudgetTracker)

/-- `would_exceed`: the axis that the projection bursts. -/
def wouldExceed (usdBurst : UsdBurst) (projection : Json) : Except Exc (Option String) := do
  let cost ← costUsd H projection
  let tokensIn ← tokens projection "tokens_in"
  let tokensOut ← tokens projection "tokens_out"
  return if usdBurst b.usdSpent cost then some "usd_max"
    else if exceeds b.tokensInputMax b.tokensInputSpent tokensIn then some "tokens_input_max"
    else if exceeds b.tokensOutputMax b.tokensOutputSpent tokensOut then some "tokens_output_max"
    else none

/-- `charge`. -/
def charge (cost : Json) (tokensIn tokensOut : ℤ) : BudgetTracker :=
  { b with
    usdSpent := b.usdSpent ++ [cost]
    tokensInputSpent := b.tokensInputSpent + tokensIn
    tokensOutputSpent := b.tokensOutputSpent + tokensOut }

/-- The charge that the supervisor makes for a usage report. -/
def chargeUsage (usage : Json) : Except Exc BudgetTracker := do
  let usage ← usage.dict
  let cost ← costUsd H usage
  let tokensIn ← tokens usage "tokens_in"
  let tokensOut ← tokens usage "tokens_out"
  return b.charge cost tokensIn tokensOut

end BudgetTracker

end Shiroe
