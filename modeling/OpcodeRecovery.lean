import OpcodeRecovery.Bisect
import OpcodeRecovery.Bytes
import OpcodeRecovery.Bytes.Cursor
import OpcodeRecovery.Bytes.SevenBit
import OpcodeRecovery.Bytes.Sha1
import OpcodeRecovery.Code.Assembly
import OpcodeRecovery.Code.Cache
import OpcodeRecovery.Code.Decode
import OpcodeRecovery.Code.Instruction
import OpcodeRecovery.Code.Method
import OpcodeRecovery.Code.OffsetSet
import OpcodeRecovery.Code.Shape
import OpcodeRecovery.Code.Width
import OpcodeRecovery.Devirtualization
import OpcodeRecovery.Error
import OpcodeRecovery.Ledger
import OpcodeRecovery.Log
import OpcodeRecovery.MethodKey
import OpcodeRecovery.Opcode.Mapper
import OpcodeRecovery.Opcode.Mapping
import OpcodeRecovery.Opcode.Profile
import OpcodeRecovery.Opcode.Ranking
import OpcodeRecovery.Opcode.Resolve
import OpcodeRecovery.Opcode.Score
import OpcodeRecovery.Opcode.Signature
import OpcodeRecovery.Progress
import OpcodeRecovery.Proofs.Bisect
import OpcodeRecovery.Proofs.Bytes.SevenBit
import OpcodeRecovery.Proofs.Code.Bookkeeping
import OpcodeRecovery.Proofs.Code.Bounds
import OpcodeRecovery.Proofs.Code.Cache
import OpcodeRecovery.Proofs.Code.Classification
import OpcodeRecovery.Proofs.Code.Faults
import OpcodeRecovery.Proofs.Code.Header
import OpcodeRecovery.Proofs.Code.Inference
import OpcodeRecovery.Proofs.Code.Interleaving
import OpcodeRecovery.Proofs.Code.Leaders
import OpcodeRecovery.Proofs.Code.OffsetSet
import OpcodeRecovery.Proofs.Code.Operand
import OpcodeRecovery.Proofs.Code.Order
import OpcodeRecovery.Proofs.Code.Promotion
import OpcodeRecovery.Proofs.Code.RoundTrip
import OpcodeRecovery.Proofs.Code.Scanning
import OpcodeRecovery.Proofs.Code.Spelling
import OpcodeRecovery.Proofs.Code.Tiling
import OpcodeRecovery.Proofs.Code.Truncation
import OpcodeRecovery.Proofs.Code.Verification
import OpcodeRecovery.Proofs.Code.Votes
import OpcodeRecovery.Proofs.Devirtualization.Isolation
import OpcodeRecovery.Proofs.Devirtualization.Narration
import OpcodeRecovery.Proofs.Devirtualization.Report
import OpcodeRecovery.Proofs.Devirtualization.Transparency
import OpcodeRecovery.Proofs.Ledger
import OpcodeRecovery.Proofs.Opcode.Arithmetic
import OpcodeRecovery.Proofs.Opcode.Bystanders
import OpcodeRecovery.Proofs.Opcode.Conservation
import OpcodeRecovery.Proofs.Opcode.Coverage
import OpcodeRecovery.Proofs.Opcode.Injectivity
import OpcodeRecovery.Proofs.Opcode.Justification
import OpcodeRecovery.Proofs.Opcode.Merging
import OpcodeRecovery.Proofs.Opcode.Restoration
import OpcodeRecovery.Proofs.Opcode.Standing
import OpcodeRecovery.Proofs.Opcode.Violations
import OpcodeRecovery.Proofs.Outcome
import OpcodeRecovery.Proofs.Resource.Acceptance
import OpcodeRecovery.Proofs.Resource.Extraction
import OpcodeRecovery.Proofs.Resource.Front
import OpcodeRecovery.Proofs.Resource.Locality
import OpcodeRecovery.Proofs.Resource.Masking
import OpcodeRecovery.Proofs.Resource.RoundTrip
import OpcodeRecovery.Resource.Archive
import OpcodeRecovery.Resource.Contents
import OpcodeRecovery.Resource.Format
import OpcodeRecovery.Resource.Keystream
import OpcodeRecovery.Stream
import OpcodeRecovery.Text.Fixed
import OpcodeRecovery.Text.Hex
import OpcodeRecovery.Token
import OpcodeRecovery.Proofs.Bytes.Cursor
import OpcodeRecovery.Proofs.Resource.Keystream
import OpcodeRecovery.Proofs.Opcode.Targets
import OpcodeRecovery.Proofs.Code.Marking
import OpcodeRecovery.Proofs.Opcode.Dominance
import OpcodeRecovery.Proofs.Opcode.Doubles
import OpcodeRecovery.Proofs.Opcode.Ranking
