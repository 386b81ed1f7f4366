/-!
# Failures

Why a run ends without findings.
-/

namespace Disposal

/-- A reason for which a run gives up. -/
inductive Failure where
  | parse (detail : String)
  | config (detail : String)
  | cancelled
  | other (detail : String)
  deriving DecidableEq, Repr

namespace Failure

/-- The wording of a failure. -/
def message : Failure → String
  | parse detail => s!"parse failure: {detail}"
  | config detail => s!"invalid configuration: {detail}"
  | cancelled => "analysis cancelled"
  | other detail => detail

/-- A failure with a cause: what was being done, and what went wrong. -/
def withCause (action cause : String) : Failure := other s!"{action}: {cause}"

/-- Whether the run was stopped rather than failed. -/
def isCancelled (f : Failure) : Bool := f == cancelled

end Failure

end Disposal
