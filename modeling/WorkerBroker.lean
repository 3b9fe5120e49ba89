import WorkerBroker.Lcore.Helper
import WorkerBroker.Lcore.Sysfs
import WorkerBroker.Main
import WorkerBroker.Proofs.Exits
import WorkerBroker.Proofs.Membership
import WorkerBroker.Proofs.Requests
import WorkerBroker.Scenario.Pipe
import WorkerBroker.Proofs.Answers
import WorkerBroker.Proofs.Services
import WorkerBroker.Proofs.Addressees
import WorkerBroker.Proofs.Refusals
import WorkerBroker.Proofs.Registry
import WorkerBroker.Proofs.Lines
import WorkerBroker.Proofs.Incidents
import WorkerBroker.Proofs.Replacement
import WorkerBroker.Proofs.Succession
import WorkerBroker.Proofs.Conversations
import WorkerBroker.Proofs.Hands
import WorkerBroker.Proofs.Verdicts
import WorkerBroker.Proofs.Locality
import WorkerBroker.Proofs.Views
import WorkerBroker.Proofs.Sweeps
import WorkerBroker.Proofs.Independence
import WorkerBroker.Proofs.Endings
import WorkerBroker.Proofs.Sections
import WorkerBroker.Proofs.Accounting
import WorkerBroker.Proofs.Slaves
import WorkerBroker.Proofs.Composition
import WorkerBroker.Proofs.Reading
import WorkerBroker.Proofs.Handshakes
import WorkerBroker.Proofs.Pruning
import WorkerBroker.Proofs.Departures
import WorkerBroker.Proofs.FileTrees
import WorkerBroker.Proofs.Keys
import WorkerBroker.Proofs.StatusPorts
import WorkerBroker.Proofs.VlanNumbers
import WorkerBroker.Proofs.PublishedLayout
import WorkerBroker.Proofs.Padding
