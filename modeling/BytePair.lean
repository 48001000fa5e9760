import BytePair.Main
import BytePair.Proofs.BinaryForm
import BytePair.Proofs.Replay
import BytePair.Proofs.Spelling
import BytePair.Proofs.Minting
import BytePair.Proofs.Reloading
import BytePair.Proofs.Operations
import BytePair.Proofs.History
import BytePair.Proofs.Stages
import BytePair.Proofs.Documents
import BytePair.Proofs.Appending
import BytePair.Proofs.Failures
import BytePair.Proofs.Paths
import BytePair.Proofs.Places
import BytePair.Proofs.Saving
import BytePair.Proofs.Printing
import BytePair.Proofs.Exporting
import BytePair.Proofs.Characters
import BytePair.Proofs.InputLines
import BytePair.Proofs.Building
import BytePair.Proofs.Probing
import BytePair.Proofs.Sizes
import BytePair.Proofs.Decoding
import BytePair.Proofs.Descending
import BytePair.Proofs.Stopping
import BytePair.Proofs.Lockstep
import BytePair.Proofs.Replacing
import BytePair.Proofs.Terminating
import BytePair.Proofs.Respelling
import BytePair.Proofs.Hearings
import BytePair.Proofs.Candidacy
import BytePair.Proofs.Marking
import BytePair.Proofs.Truncating
import BytePair.Proofs.Dividing
import BytePair.Proofs.Drawing
import BytePair.Proofs.Naming
import BytePair.Proofs.Reaching
import BytePair.Proofs.Arguments
import BytePair.Proofs.Refusing
import BytePair.Proofs.Compacting
import BytePair.Proofs.Gathering
import BytePair.Proofs.Configurations
import BytePair.Proofs.Walking
import BytePair.Proofs.Oversized
