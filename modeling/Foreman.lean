import Foreman.Outcome
import Foreman.Plan.Session
import Foreman.Plan.View
import Foreman.Cancel.Run
import Foreman.Gate.Session
import Foreman.Pool.Shift
import Foreman.Settings.Basic
import Foreman.Executor.History
import Foreman.Executor.Run
import Foreman.Proofs.ConcurrencyBounds
import Foreman.Proofs.RunProgress
import Foreman.Proofs.ExecutionOrder
import Foreman.Proofs.RunOutcome
import Foreman.Proofs.PlanProgress
import Foreman.Proofs.LocksLeft
import Foreman.Proofs.LeaseHistory
import Foreman.Proofs.GateHolding
import Foreman.Proofs.GateProtocol
import Foreman.Proofs.NodeFates
import Foreman.Proofs.Breakage
import Foreman.Proofs.FailureReports
import Foreman.Proofs.FailedRuns
import Foreman.Proofs.PollingPasses
import Foreman.Proofs.Cancellation
import Foreman.Proofs.BudgetAccounts
import Foreman.Proofs.GateBinding
import Foreman.Proofs.PassUndo
import Foreman.Proofs.TokenCalls
import Foreman.Proofs.CallbackAccounts
import Foreman.Proofs.CallbackDelivery
import Foreman.Proofs.PlanCalls
import Foreman.Proofs.NodeMarks
import Foreman.Proofs.NodeLives
import Foreman.Proofs.FailureSpread
import Foreman.Proofs.FirstFit
import Foreman.Proofs.LastingStop
import Foreman.Proofs.GraphBuilding
import Foreman.Proofs.FaultyCallbacks
import Foreman.Proofs.Occurrences
import Foreman.Proofs.Executions
import Foreman.Proofs.FailureAttribution
import Foreman.Proofs.LoneWorker
import Foreman.Proofs.FailureDrain
import Foreman.Proofs.PoolShifts
import Foreman.Proofs.FullStatistics
import Foreman.Proofs.Numerals
import Foreman.Proofs.SkipRounds
