import Tricode.Folder
import Tricode.Main
import Tricode.Proofs.AcceptedTypes
import Tricode.Proofs.CallKinds
import Tricode.Proofs.Classification
import Tricode.Proofs.Completion
import Tricode.Proofs.Imports
import Tricode.Proofs.Precedence
import Tricode.Proofs.Propagation
import Tricode.Proofs.Rendering
import Tricode.Proofs.RewrittenMeaning
import Tricode.Proofs.Simulation.Unit
import Tricode.Proofs.StaticMethods
import Tricode.Proofs.Suppression
import Tricode.Proofs.TreeText
import Tricode.Proofs.Uniqueness
import Tricode.Proofs.Unreachable
import Tricode.Proofs.VoidValues
import Tricode.Syntax.Build
