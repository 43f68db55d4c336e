import RegAsm.Command.Workspace
import RegAsm.Main
import RegAsm.Proofs.Placement
import RegAsm.Proofs.Patching
import RegAsm.Proofs.Resolution
import RegAsm.Proofs.RunImage
import RegAsm.Proofs.Decoding
import RegAsm.Proofs.Geometry
import RegAsm.Proofs.Grammar
import RegAsm.Proofs.Scanning
import RegAsm.Proofs.Words
import RegAsm.Proofs.Reading
import RegAsm.Proofs.TwoPass
import RegAsm.Proofs.LabelMap
import RegAsm.Proofs.Listing
import RegAsm.Proofs.Literals
import RegAsm.Proofs.Spelling
import RegAsm.Proofs.Relisting
import RegAsm.Proofs.Relabeling
import RegAsm.Proofs.Places
import RegAsm.Proofs.Reencoding
import RegAsm.Proofs.Reassembly
import RegAsm.Proofs.RoundTrip
import RegAsm.Proofs.Derivation
import RegAsm.Proofs.Printing
import RegAsm.Proofs.Footprint
import RegAsm.Proofs.Overlap
import RegAsm.Proofs.Partition
import RegAsm.Proofs.Canonical
import RegAsm.Proofs.Undefined
import RegAsm.Proofs.Lines
import RegAsm.Proofs.Indifference
import RegAsm.Proofs.YamlScalars
import RegAsm.Proofs.YamlBlocks
import RegAsm.Proofs.DebugMapText
import RegAsm.Proofs.Recall
import RegAsm.Proofs.Scopes
import RegAsm.Proofs.Backtracking
import RegAsm.Proofs.Relocation
import RegAsm.Proofs.Reset
import RegAsm.Proofs.Accounting
import RegAsm.Proofs.Walk
import RegAsm.Proofs.Emission
import RegAsm.Proofs.Resumption
import RegAsm.Proofs.WholeWords
import RegAsm.Proofs.Quotation
import RegAsm.Proofs.LongestMatch
import RegAsm.Proofs.Numerals
import RegAsm.Proofs.Delivery
import RegAsm.Proofs.History
import RegAsm.Proofs.Vocabulary
