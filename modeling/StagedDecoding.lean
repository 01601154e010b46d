import StagedDecoding.Config.Document
import StagedDecoding.Config.Tiny
import StagedDecoding.LogFormat
import StagedDecoding.Model.Replay
import StagedDecoding.Model.Scripted
import StagedDecoding.Pipeline.TableBuffers
import StagedDecoding.Proofs.Actions
import StagedDecoding.Proofs.Agreement
import StagedDecoding.Proofs.Batches
import StagedDecoding.Proofs.BestHypotheses
import StagedDecoding.Proofs.Binary32
import StagedDecoding.Proofs.Bookkeeping
import StagedDecoding.Proofs.Descent
import StagedDecoding.Proofs.Distinctness
import StagedDecoding.Proofs.EntrySteps
import StagedDecoding.Proofs.FinalResults
import StagedDecoding.Proofs.Gaps
import StagedDecoding.Proofs.LateBeams
import StagedDecoding.Proofs.LateEnds
import StagedDecoding.Proofs.LayerNames
import StagedDecoding.Proofs.LogSoftmax
import StagedDecoding.Proofs.MinimumLength
import StagedDecoding.Proofs.Offers
import StagedDecoding.Proofs.Omissions
import StagedDecoding.Proofs.Overruns
import StagedDecoding.Proofs.PendingScores
import StagedDecoding.Proofs.Penalties
import StagedDecoding.Proofs.Placement
import StagedDecoding.Proofs.Precedence
import StagedDecoding.Proofs.Progress
import StagedDecoding.Proofs.PromptSplit
import StagedDecoding.Proofs.Refusals
import StagedDecoding.Proofs.RefusedCommits
import StagedDecoding.Proofs.Rounding
import StagedDecoding.Proofs.Rounds
import StagedDecoding.Proofs.SeenHistory
import StagedDecoding.Proofs.StableSort
import StagedDecoding.Proofs.StepCalls
import StagedDecoding.Proofs.Stopping
import StagedDecoding.Proofs.Suppressed
import StagedDecoding.Proofs.TakenBack
import StagedDecoding.Proofs.Termination
import StagedDecoding.Proofs.Unfeeding
import StagedDecoding.Proofs.Waiting
import StagedDecoding.Strategy.Bare
