import FormulaGraph.Formula.Rendering
import FormulaGraph.Formula.Value
import FormulaGraph.Formula.Traversal
import FormulaGraph.ComplexFormula
import FormulaGraph.FormulaMatrix
import FormulaGraph.Descent.Search
import FormulaGraph.Scalar.Binary64
import FormulaGraph.Proofs.Parts
import FormulaGraph.Proofs.Slots
import FormulaGraph.Proofs.Generations
import FormulaGraph.Proofs.CacheCoherence
import FormulaGraph.Proofs.Ledger
import FormulaGraph.Proofs.Building
import FormulaGraph.Proofs.Definedness
import FormulaGraph.Proofs.Passes
import FormulaGraph.Proofs.Merging
import FormulaGraph.Proofs.Spelling
import FormulaGraph.Proofs.Amounts
import FormulaGraph.Proofs.RuleSoundness
import FormulaGraph.Proofs.SimplifiedValue
import FormulaGraph.Proofs.RegularPoints
import FormulaGraph.Proofs.Rates
import FormulaGraph.Proofs.Slopes
import FormulaGraph.Proofs.Replacing
import FormulaGraph.Proofs.RememberedDerivatives
import FormulaGraph.Proofs.DerivativeValue
import FormulaGraph.Proofs.DerivativeRates
import FormulaGraph.Proofs.Workbench
import FormulaGraph.Proofs.Outline
import FormulaGraph.Proofs.Reading
import FormulaGraph.Proofs.OutlineValue
import FormulaGraph.Proofs.SharedValue
import FormulaGraph.Proofs.WholeNumbers
import FormulaGraph.Proofs.Scoping
import FormulaGraph.Proofs.LexicalScope
import FormulaGraph.Proofs.Trials
import FormulaGraph.Proofs.Substituting
import FormulaGraph.Proofs.SubstitutedValue
import FormulaGraph.Proofs.SimpleNodes
import FormulaGraph.Proofs.Settling
import FormulaGraph.Proofs.Unambiguous
import FormulaGraph.Proofs.Actions
import FormulaGraph.Proofs.StepRounds
import FormulaGraph.Proofs.FeasibleSteps
import FormulaGraph.Proofs.SessionDerivatives
import FormulaGraph.Proofs.SearchIterations
import FormulaGraph.Proofs.FeasibleSearch
import FormulaGraph.Proofs.CachedSteps
import FormulaGraph.Proofs.RewrittenRates
import FormulaGraph.Proofs.RewrittenDerivatives
import FormulaGraph.Proofs.Recomputations
import FormulaGraph.Proofs.StepHistory
import FormulaGraph.Proofs.StepBudget
import FormulaGraph.Proofs.SearchReports
import FormulaGraph.Proofs.TightestLimits
import FormulaGraph.Proofs.Unfolding
import FormulaGraph.Proofs.MemoFreePasses
import FormulaGraph.Proofs.Fringe
import FormulaGraph.Proofs.MemoFreeDerivatives
import FormulaGraph.Proofs.SharingIndependence
import FormulaGraph.Proofs.MaximalSharing
import FormulaGraph.Proofs.Brackets
import FormulaGraph.Proofs.Binary64Order
import FormulaGraph.Proofs.HalvingLoops
import FormulaGraph.Proofs.Binary64Rounding
import FormulaGraph.Proofs.Binary64Brackets
import FormulaGraph.Proofs.Binary64Text
import FormulaGraph.Proofs.SafeDivision
import FormulaGraph.Proofs.Walks
import FormulaGraph.Proofs.WalkOrder
import FormulaGraph.Proofs.SimplifiedShape
import FormulaGraph.Proofs.UntouchedNodes
import FormulaGraph.Proofs.FrozenValue
import FormulaGraph.Proofs.RootSlopes
import FormulaGraph.Proofs.NestedSums
import FormulaGraph.Proofs.Determinants
import FormulaGraph.Proofs.SharedImages
import FormulaGraph.Proofs.AbsentVariables
import FormulaGraph.Proofs.NeutralConstants
import FormulaGraph.Proofs.AxisTurns
import FormulaGraph.Proofs.Denotations
import FormulaGraph.Proofs.LingeringRoots
import FormulaGraph.Proofs.PointValues
import FormulaGraph.Proofs.AxisRotations
import FormulaGraph.Proofs.MatrixLayout
import FormulaGraph.Proofs.MatrixValues
import FormulaGraph.Proofs.MatrixAlgebra
import FormulaGraph.Proofs.Inverses
import FormulaGraph.Proofs.Frames
import FormulaGraph.Proofs.FormulasOver
import FormulaGraph.Proofs.RotationMatrices
import FormulaGraph.Proofs.ComplexValues
import FormulaGraph.Proofs.Interpolation
import FormulaGraph.Proofs.ShownLabels
import FormulaGraph.Proofs.WrittenVariables
import FormulaGraph.Proofs.PolarLabels
