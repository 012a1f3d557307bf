import CodePattern.Decoding
import CodePattern.Embedding
import CodePattern.Main
import CodePattern.Proofs.Candidate
import CodePattern.Proofs.Kept
import CodePattern.Proofs.Choice
import CodePattern.Proofs.Located
import CodePattern.Proofs.Copying
import CodePattern.Proofs.Occurrence
import CodePattern.Proofs.Dedented
import CodePattern.Proofs.Restoration
import CodePattern.Proofs.Faults
import CodePattern.Proofs.Identifier
import CodePattern.Proofs.Layers
import CodePattern.Proofs.Strictness
import CodePattern.Proofs.Hygiene
import CodePattern.Proofs.Reindentation
import CodePattern.Proofs.Correspondence
import CodePattern.Proofs.Nesting
import CodePattern.Proofs.Classification
import CodePattern.Proofs.Lossless
import CodePattern.Proofs.PathOrder
import CodePattern.Proofs.Scanning
import CodePattern.Proofs.ErrorLines
import CodePattern.Proofs.Leniency
import CodePattern.Proofs.TopmostErrors
import CodePattern.Proofs.AsciiOctets
import CodePattern.Proofs.Dialects
import CodePattern.Proofs.Draft
import CodePattern.Proofs.EditScript
import CodePattern.Proofs.OctetScan
import CodePattern.Proofs.RawLiteral
import CodePattern.Proofs.Literals
import CodePattern.Proofs.Idempotence
import CodePattern.Proofs.Rows
import CodePattern.Proofs.Interpolation
import CodePattern.Proofs.Subtree
import CodePattern.Proofs.NodeForm
import CodePattern.Proofs.ArgumentGrammar
import CodePattern.Proofs.LinePositions
import CodePattern.Proofs.LanguageKeys
