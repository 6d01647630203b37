import HackStack.Main
import HackStack.Text.Similarity
import HackStack.Text.Styling
import HackStack.Proofs.Correctness
import HackStack.Proofs.Decimals
import HackStack.Proofs.Execution
import HackStack.Proofs.Layout
import HackStack.Proofs.StackMachine
import HackStack.Proofs.Written
import HackStack.Proofs.Lockstep
import HackStack.Proofs.Termination
import HackStack.Proofs.Transcript
import HackStack.Proofs.Labels
import HackStack.Proofs.Resolution
import HackStack.Proofs.Directory
import HackStack.Proofs.Walk
import HackStack.Proofs.StepLimit
import HackStack.Proofs.Safety
import HackStack.Proofs.Comparison
import HackStack.Proofs.Grammar
import HackStack.Proofs.Faults
import HackStack.Proofs.Computations
import HackStack.Proofs.Transfer
import HackStack.Proofs.Bookkeeping
import HackStack.Proofs.Renumbering
import HackStack.Proofs.Erasure
import HackStack.Proofs.DumpFile
import HackStack.Proofs.SignedReadings
import HackStack.Proofs.Reloading
