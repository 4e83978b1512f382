import ClausalProof.Check
import ClausalProof.Command.Programs
import ClausalProof.Main
import ClausalProof.Proofs.Engine.History
import ClausalProof.Proofs.Refutation
import ClausalProof.Proofs.Soundness
import ClausalProof.Proofs.Totality
import ClausalProof.Proofs.Acceptance
import ClausalProof.Proofs.Completeness
import ClausalProof.Proofs.Consequence
import ClausalProof.Proofs.Spelling
import ClausalProof.Proofs.Text.Listing
import ClausalProof.Proofs.Command.Programs
import ClausalProof.Proofs.Cut
import ClausalProof.Proofs.Engine.Incremental
import ClausalProof.Proofs.Text.Grammar
import ClausalProof.Proofs.Toml.Document
import ClausalProof.Proofs.Verdict.Toml
import ClausalProof.Proofs.Command.ExitCode
import ClausalProof.Proofs.Evidence
import ClausalProof.Proofs.Modes
import ClausalProof.Proofs.Balance
import ClausalProof.Proofs.Engine.Chain
import ClausalProof.Proofs.Engine.Observation
import ClausalProof.Proofs.Extension
import ClausalProof.Proofs.Store.Ledger
import ClausalProof.Proofs.Trail.Stack
import ClausalProof.Proofs.Engine.Reasons
import ClausalProof.Proofs.Text.Word
import ClausalProof.Proofs.Text.Pieces
import ClausalProof.Proofs.Literal
