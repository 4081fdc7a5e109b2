import Minicore.Main
import Minicore.Proofs.Assembly.Doubts
import Minicore.Proofs.Assembly.Listing
import Minicore.Proofs.Assembly.Outcome
import Minicore.Proofs.Assembly.Renaming
import Minicore.Proofs.Assembly.Resolution
import Minicore.Proofs.Assembly.Respacing
import Minicore.Proofs.Assembly.Written
import Minicore.Proofs.Codegen.Context
import Minicore.Proofs.Codegen.Declarations
import Minicore.Proofs.Codegen.Growth
import Minicore.Proofs.Codegen.Runs
import Minicore.Proofs.Codegen.WriteOnce
import Minicore.Proofs.Command.Output
import Minicore.Proofs.Linking.ControlFlow
import Minicore.Proofs.Linking.Names
import Minicore.Proofs.Linking.Outcome
import Minicore.Proofs.Machine.Language
import Minicore.Proofs.Machine.Literals
import Minicore.Proofs.Machine.Overlap
import Minicore.Proofs.Machine.Reordering
import Minicore.Proofs.Meaning.Preservation
import Minicore.Proofs.Tree.Reading
