import EvmInspect.Abi.Call
import EvmInspect.Abi.Conforms
import EvmInspect.Abi.Decode.Ranged
import EvmInspect.Abi.Layout
import EvmInspect.Abi.WellFormed
import EvmInspect.Abi.Word.Lemmas
import EvmInspect.Abi.Word.Sign
import EvmInspect.Disassembly.Direct
import EvmInspect.Disassembly.Request
import EvmInspect.Format
import EvmInspect.Hex.Lemmas
import EvmInspect.Interface
import EvmInspect.Selector.Builtin.Lemmas
import EvmInspect.Selector.Interleaving
import EvmInspect.Selector.Numbers
import EvmInspect.Signature.Lemmas
import EvmInspect.Sweep.Boundary
import EvmInspect.Text.Blank.Lemmas
import EvmInspect.Text.Brackets.Lemmas
import EvmInspect.Text.Quoted.Lemmas
import EvmInspect.Text.Utf8.Lemmas
import EvmInspect.Proofs.Results
import EvmInspect.Proofs.Types
import EvmInspect.Proofs.HeadSizes
import EvmInspect.Proofs.Leaves
import EvmInspect.Proofs.Ranges
import EvmInspect.Proofs.RoundTrip
import EvmInspect.Proofs.Coverage
import EvmInspect.Proofs.Agreement
import EvmInspect.Proofs.Gathering
import EvmInspect.Proofs.Detection
import EvmInspect.Proofs.Steady
import EvmInspect.Proofs.Concatenation
import EvmInspect.Proofs.Demand
import EvmInspect.Proofs.Layouts
import EvmInspect.Proofs.Acceptance
import EvmInspect.Proofs.Refusals
import EvmInspect.Proofs.Amplification
import EvmInspect.Proofs.Exactness
import EvmInspect.Proofs.Normalising
import EvmInspect.Proofs.Trailing
import EvmInspect.Proofs.Signatures
import EvmInspect.Proofs.Spelling
import EvmInspect.Proofs.Registries
import EvmInspect.Proofs.Matching
import EvmInspect.Proofs.Canonical
import EvmInspect.Proofs.Annotations
import EvmInspect.Proofs.Stripping
import EvmInspect.Proofs.Discoveries
import EvmInspect.Proofs.Truncation
import EvmInspect.Disassembly.Interleaving
import EvmInspect.Proofs.Batches
import EvmInspect.Format.Report
import EvmInspect.Proofs.Documents
import EvmInspect.Proofs.Writing
import EvmInspect.Proofs.Reports
import EvmInspect.Proofs.Addressing
import EvmInspect.Proofs.Tidying
import EvmInspect.Proofs.Stability
import EvmInspect.Proofs.Returns
import EvmInspect.Proofs.Registration
import EvmInspect.Proofs.Collisions
import EvmInspect.Proofs.Listings
import EvmInspect.Proofs.Records
import EvmInspect.Proofs.JsonLines
import EvmInspect.Proofs.Inputs
import EvmInspect.Proofs.Repeats
import EvmInspect.Proofs.Renderings
import EvmInspect.Proofs.Candidates
import EvmInspect.Proofs.Depths
import EvmInspect.Proofs.Bodies
