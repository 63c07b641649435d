import Reparam.Diff.Table
import Reparam.Stored.Reader
import Reparam.Proofs.Apply.Following
import Reparam.Proofs.Locals.Lasting
import Reparam.Proofs.Diff.RoundTrip
import Reparam.Proofs.Apply.Moving
import Reparam.Proofs.Apply.Keeping
import Reparam.Proofs.Apply.Sheltered
import Reparam.Proofs.Apply.Addressable
import Reparam.Proofs.Diff.Indifference
import Reparam.Proofs.Json.Naturals
import Reparam.Proofs.Json.Quoting
import Reparam.Proofs.Json.Containers
import Reparam.Proofs.Stored.Tokens
import Reparam.Proofs.Method.Descriptors
import Reparam.Proofs.Stored.Edits
import Reparam.Proofs.Stored.Loading
import Reparam.Proofs.Apply.Displacing
import Reparam.Proofs.Slots.Pushing
import Reparam.Proofs.Flatten.Offsetting
import Reparam.Proofs.Diff.Appending
import Reparam.Proofs.Diff.OneApart
import Reparam.Proofs.Diff.Charging
import Reparam.Proofs.Diff.Exchanging
import Reparam.Proofs.Diff.Ambiguity
import Reparam.Proofs.Flatten.Normal
import Reparam.Proofs.Apply.Reaching
import Reparam.Proofs.Apply.Adapting
import Reparam.Proofs.Stored.Versions
import Reparam.Proofs.Slots.Words
import Reparam.Proofs.Diff.Advancing
