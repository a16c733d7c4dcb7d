import PaxosPayments.Foundations.Base64
import PaxosPayments.Foundations.Csv
import PaxosPayments.Foundations.Decimal
import PaxosPayments.Foundations.Json
import PaxosPayments.Foundations.JsonTokens
import PaxosPayments.Foundations.Lines
import PaxosPayments.Foundations.Quoted
import PaxosPayments.Foundations.Replacement
import PaxosPayments.Foundations.Runs
import PaxosPayments.Foundations.Tables
import PaxosPayments.Foundations.Totals
import PaxosPayments.Foundations.Voting
import PaxosPayments.Foundations.Linearization
import PaxosPayments.Paxos.Majorities
import PaxosPayments.Paxos.Adoption
import PaxosPayments.Paxos.Holes
import PaxosPayments.Paxos.Interleaving
import PaxosPayments.Paxos.LogFile
import PaxosPayments.Paxos.WakeUps
import PaxosPayments.Paxos.Calls
import PaxosPayments.Paxos.Answers
import PaxosPayments.Paxos.OneCopy
import PaxosPayments.Paxos.Restarts
import PaxosPayments.Bank.Crashes
import PaxosPayments.Bank.Reads
import PaxosPayments.Bank.Records
import PaxosPayments.Bank.Seeding
import PaxosPayments.Gateway.Conservation
import PaxosPayments.Gateway.Prepares
import PaxosPayments.Gateway.Ownership
import PaxosPayments.Gateway.Users
import PaxosPayments.Gateway.Amounts
import PaxosPayments.Gateway.Routing
import PaxosPayments.Client.Queue
import PaxosPayments.ControlPlane.Incarnations
import PaxosPayments.ControlPlane.OneRound
import PaxosPayments.ControlPlane.Orphans
import PaxosPayments.ControlPlane.Faults
import PaxosPayments.ControlPlane.Cluster
import PaxosPayments.ControlPlane.Frontend
import PaxosPayments.ControlPlane.Replication
import PaxosPayments.ControlPlane.ClusterTransfers
import PaxosPayments.ControlPlane.Reachability
import PaxosPayments.ControlPlane.CutOff
import PaxosPayments.TransactionId.Counter
