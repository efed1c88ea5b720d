import OpcodeTable.OrderedMap
import OpcodeTable.Text
import OpcodeTable.Text.Output
import OpcodeTable.Key
import OpcodeTable.Category
import OpcodeTable.Category.Order
import OpcodeTable.Table
import OpcodeTable.Instruction.Session
import OpcodeTable.Run
import OpcodeTable.Initializer
import OpcodeTable.Listing.Reference
import OpcodeTable.Comparison
import OpcodeTable.Json.Category
import OpcodeTable.Json.Record
import OpcodeTable.CommandLine.Outcome
import OpcodeTable.Table.Session
import OpcodeTable.Main
import OpcodeTable.Expansion
import OpcodeTable.Proofs.Tiling
import OpcodeTable.Proofs.Compression
import OpcodeTable.Proofs.Building
import OpcodeTable.Proofs.Text.Words
import OpcodeTable.Proofs.Text.Numerals
import OpcodeTable.Proofs.Text.Sinks
import OpcodeTable.Proofs.Writing
import OpcodeTable.Proofs.Keys
import OpcodeTable.Proofs.Listings
import OpcodeTable.Proofs.RunText
import OpcodeTable.Proofs.Names
import OpcodeTable.Proofs.Initializers
import OpcodeTable.Proofs.NameArrays
import OpcodeTable.Proofs.Tokens
import OpcodeTable.Proofs.Invocations
import OpcodeTable.Proofs.Repetitions
import OpcodeTable.Proofs.Declarations
import OpcodeTable.Proofs.Comparisons
import OpcodeTable.Proofs.Edits
import OpcodeTable.Proofs.Decoding
import OpcodeTable.Proofs.Ranges
import OpcodeTable.Proofs.Verdicts
import OpcodeTable.Proofs.Classification
import OpcodeTable.Proofs.Dispatch
import OpcodeTable.Proofs.Blocks
import OpcodeTable.Proofs.CanonicalRuns
import OpcodeTable.Proofs.Renaming
import OpcodeTable.Proofs.JsonShapes
import OpcodeTable.Proofs.RoundTrips
import OpcodeTable.Proofs.FewestBlocks
import OpcodeTable.Proofs.Defaults
import OpcodeTable.Proofs.ListingLines
import OpcodeTable.Proofs.ListingTexts
import OpcodeTable.Proofs.RunElements
import OpcodeTable.Proofs.RunLines
import OpcodeTable.Proofs.KeyArguments
