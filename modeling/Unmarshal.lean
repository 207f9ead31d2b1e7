import Unmarshal.Main
import Unmarshal.Proofs.Aliases
import Unmarshal.Proofs.Appending
import Unmarshal.Proofs.Claiming
import Unmarshal.Proofs.CodeText.Blocks
import Unmarshal.Proofs.CodeText.RoundTrip
import Unmarshal.Proofs.Conversion
import Unmarshal.Proofs.Cycles
import Unmarshal.Proofs.Decoding
import Unmarshal.Proofs.Destination
import Unmarshal.Proofs.DryRun
import Unmarshal.Proofs.FirstFailure
import Unmarshal.Proofs.Freshness
import Unmarshal.Proofs.Guarding
import Unmarshal.Proofs.Hiding
import Unmarshal.Proofs.LocalNames
import Unmarshal.Proofs.Lowering
import Unmarshal.Proofs.OutputModes
import Unmarshal.Proofs.Positions
import Unmarshal.Proofs.Relevance
import Unmarshal.Proofs.Safety
import Unmarshal.Proofs.Serialization
import Unmarshal.Proofs.Transparency
import Unmarshal.Proofs.TypeText.Acceptance
import Unmarshal.Proofs.TypeText.Faults
import Unmarshal.Proofs.TypeText.FirstFault
import Unmarshal.Proofs.TypeText.Grammar
import Unmarshal.Proofs.TypeText.Lexing
import Unmarshal.Proofs.TypeText.Partition
import Unmarshal.Proofs.TypeText.RoundTrip
import Unmarshal.Proofs.TypeText.Spacing
import Unmarshal.Proofs.Typing
import Unmarshal.Proofs.Visibility
