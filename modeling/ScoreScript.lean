import ScoreScript.Main
import ScoreScript.Proofs.Overlap
import ScoreScript.Proofs.Branches
import ScoreScript.Proofs.FrontEnds
import ScoreScript.Proofs.BranchValues
import ScoreScript.Proofs.GeneratedNames
import ScoreScript.Proofs.Teardown
import ScoreScript.Proofs.Positions
import ScoreScript.Proofs.Extension
import ScoreScript.Proofs.TruthValues
import ScoreScript.Proofs.Termination
import ScoreScript.Proofs.FreshNames
import ScoreScript.Proofs.ReadBack
import ScoreScript.Proofs.Constants
import ScoreScript.Proofs.FileNames
import ScoreScript.Proofs.Lines
import ScoreScript.Proofs.FaultPositions
import ScoreScript.Proofs.Overloads
import ScoreScript.Proofs.Brackets
import ScoreScript.Proofs.Conditionals
import ScoreScript.Proofs.Separators
import ScoreScript.Proofs.Criteria
import ScoreScript.Proofs.ObjectiveNames
import ScoreScript.Proofs.ScopeOperations
import ScoreScript.Proofs.Numerals
import ScoreScript.Proofs.FloorDivision
import ScoreScript.Proofs.Literals
import ScoreScript.Proofs.Settings
