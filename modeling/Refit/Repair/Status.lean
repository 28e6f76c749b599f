namespace Refit.Repair

inductive SkipReason where
  | noOracle
  | unitNotFound
  deriving DecidableEq, Repr

inductive Cause where
  | noProposal (attempt : Nat)
  | budgetSpent (diagnostic : String)
  deriving DecidableEq, Repr

inductive Status where
  | notNeeded
  | rulesOnly (reason : SkipReason)
  | verified (attempt : Nat)
  | unverified (cause : Cause)
  deriving DecidableEq, Repr

def Status.isUnverified : Status → Bool
  | unverified _ => true
  | _ => false

end Refit.Repair
