import WhileLang.Environment.Lemmas
import WhileLang.Evaluation.Outcome
import WhileLang.Evaluation.Stable
import WhileLang.Exchange.Config
import WhileLang.Exchange.State
import WhileLang.Machine.Stable
import WhileLang.Machine.Trace
import WhileLang.Proofs.Accuracy
import WhileLang.Proofs.Agreement
import WhileLang.Proofs.Budget
import WhileLang.Proofs.Calls
import WhileLang.Proofs.Confinement
import WhileLang.Proofs.Context
import WhileLang.Proofs.Decomposition
import WhileLang.Proofs.Dependence
import WhileLang.Proofs.Descent
import WhileLang.Proofs.GasLimit
import WhileLang.Proofs.Growth
import WhileLang.Proofs.Independence
import WhileLang.Proofs.Json.Decoding
import WhileLang.Proofs.Json.Normalization
import WhileLang.Proofs.Json.Printable
import WhileLang.Proofs.Json.RoundTrip
import WhileLang.Proofs.Loops
import WhileLang.Proofs.Nesting
import WhileLang.Proofs.Overflow
import WhileLang.Proofs.Records
import WhileLang.Proofs.Renaming
import WhileLang.Proofs.Snapshots
import WhileLang.Proofs.StepLimit
import WhileLang.Proofs.Tail
import WhileLang.Proofs.Truncation
import WhileLang.Proofs.Typing
