import Scrap.Repl.Completion
import Scrap.Main
import Scrap.Proofs.Wire.Unfolding
import Scrap.Proofs.Wire.Levels
import Scrap.Proofs.Repl.Agreement
import Scrap.Proofs.Term.Stored
import Scrap.Proofs.Term.Faults
import Scrap.Proofs.Types.Termination
import Scrap.Proofs.Types.Itself
import Scrap.Proofs.Types.Renaming
import Scrap.Proofs.Term.Grouping
import Scrap.Proofs.Machine.Calculation
import Scrap.Proofs.Machine.Copying
import Scrap.Proofs.Machine.Records
import Scrap.Proofs.Term.Tagged
import Scrap.Proofs.Term.Hygiene
import Scrap.Proofs.Prelude.Functions
import Scrap.Proofs.Prelude.Quicksort
import Scrap.Proofs.Code.Numbering
import Scrap.Proofs.Wire.Integers
import Scrap.Proofs.Eval.Values
