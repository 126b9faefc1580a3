import RegLan.Plain.Matcher
import RegLan.Proofs.Plain.OfPattern
import RegLan.Proofs.Term.Smtlib
import RegLan.Solver.Recorder
import RegLan.Workbench
import RegLan.Proofs.Term.Normal
import RegLan.Proofs.Solver.Deferred
import RegLan.Proofs.Term.Spine
import RegLan.Proofs.Term.FiniteDerivatives
import RegLan.Proofs.Pattern.Fault
import RegLan.Proofs.Pattern.Prefix
import RegLan.Proofs.Pattern.Written
import RegLan.Proofs.Solver.Recorder
import RegLan.Proofs.Term.Unambiguous
import RegLan.Proofs.Term.Canonical
import RegLan.Proofs.Term.Emptiness
import RegLan.Proofs.Pattern.Blame
import RegLan.Proofs.Pattern.Composition
import RegLan.Proofs.Plain.Sets
import RegLan.Proofs.Pattern.Verbatim
import RegLan.Proofs.Term.Resimplify
import RegLan.Proofs.Term.Precedence
import RegLan.Proofs.Pattern.Counts
import RegLan.Proofs.Pattern.Progress
import RegLan.Proofs.Plain.Matcher
