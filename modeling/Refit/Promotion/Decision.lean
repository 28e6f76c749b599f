namespace Refit.Promotion

inductive Decision where
  | unchanged
  | dryRun
  | promoted
  | declined
  deriving DecidableEq, Repr

end Refit.Promotion
