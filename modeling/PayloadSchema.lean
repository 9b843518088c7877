import PayloadSchema.Main
import PayloadSchema.Proofs.Acceptance
import PayloadSchema.Proofs.Command.Compile
import PayloadSchema.Proofs.Command.Validate
import PayloadSchema.Proofs.Compile.Closure
import PayloadSchema.Proofs.Compile.Cycle
import PayloadSchema.Proofs.Compile.Default
import PayloadSchema.Proofs.Compile.Extension
import PayloadSchema.Proofs.Compile.Faithful
import PayloadSchema.Proofs.Compile.IntegerDefault
import PayloadSchema.Proofs.Compile.Rearrangement
import PayloadSchema.Proofs.Compile.Stack
import PayloadSchema.Proofs.Compile.Targets
import PayloadSchema.Proofs.Compile.Walk
import PayloadSchema.Proofs.Completeness
import PayloadSchema.Proofs.Interpretation.Emptiness
import PayloadSchema.Proofs.Interpretation.Leniency
import PayloadSchema.Proofs.Interpretation.Likeness
import PayloadSchema.Proofs.Isolation
import PayloadSchema.Proofs.Json.ReadBack
import PayloadSchema.Proofs.Json.Scan
import PayloadSchema.Proofs.Lossless
import PayloadSchema.Proofs.Number.Digits
import PayloadSchema.Proofs.Omission
import PayloadSchema.Proofs.Path
import PayloadSchema.Proofs.Refusal
import PayloadSchema.Proofs.Report
import PayloadSchema.Proofs.Rule.Candor
import PayloadSchema.Proofs.Rule.Descent
import PayloadSchema.Proofs.Schema.Address
import PayloadSchema.Proofs.Schema.Decoding
import PayloadSchema.Proofs.Schema.Defect
import PayloadSchema.Proofs.Schema.Lookup
import PayloadSchema.Proofs.Schema.Partition
import PayloadSchema.Proofs.Separation
