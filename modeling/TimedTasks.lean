import TimedTasks.Executor.Scenario
import TimedTasks.Main
import TimedTasks.Settings.Document
import TimedTasks.Settings.Draft
import TimedTasks.Time.ManualClock
import TimedTasks.Time.Polling
import TimedTasks.Time.UnitName
import TimedTasks.Proofs.AllSettled
import TimedTasks.Proofs.Callers
import TimedTasks.Proofs.Decision
import TimedTasks.Proofs.Effects
import TimedTasks.Proofs.Operation
import TimedTasks.Proofs.Growth
import TimedTasks.Proofs.Ownership
import TimedTasks.Proofs.Accounts
import TimedTasks.Proofs.Batches
import TimedTasks.Proofs.Calls
import TimedTasks.Proofs.Cancellation
import TimedTasks.Proofs.Figures
import TimedTasks.Proofs.FirstDue
import TimedTasks.Proofs.FirstValue
import TimedTasks.Proofs.Halt
import TimedTasks.Proofs.LastRun
import TimedTasks.Proofs.Pacing
import TimedTasks.Proofs.Settling
import TimedTasks.Proofs.Termination
import TimedTasks.Proofs.Waiting
import TimedTasks.Proofs.RoundTrip
import TimedTasks.Proofs.Refusal
import TimedTasks.Proofs.Sparing
import TimedTasks.Proofs.BoundedWaits
import TimedTasks.Proofs.Endings
import TimedTasks.Proofs.RaceRecord
import TimedTasks.Proofs.Deletion
import TimedTasks.Proofs.Conversion
import TimedTasks.Proofs.Delays
import TimedTasks.Proofs.Sleepers
import TimedTasks.Proofs.Spelling
import TimedTasks.Proofs.Checks
