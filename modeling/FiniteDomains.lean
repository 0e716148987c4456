import FiniteDomains.Domain.Order
import FiniteDomains.Domain.Enumeration
import FiniteDomains.Engine.Labelling
import FiniteDomains.Proofs.Engine.Confluence
import FiniteDomains.Proofs.Engine.FixedPoints
import FiniteDomains.Proofs.Engine.Solutions
import FiniteDomains.Proofs.Engine.Termination
import FiniteDomains.Proofs.Store.Matching
import FiniteDomains.Proofs.Store.Wakeups
import FiniteDomains.Proofs.Variable.Exactness
import FiniteDomains.Proofs.Store.Forking
import FiniteDomains.Proofs.Propagator.Precedence
import FiniteDomains.Proofs.Interval.Signs
import FiniteDomains.Proofs.Interval.Rounding
import FiniteDomains.Proofs.Interval.Products
import FiniteDomains.Proofs.Propagator.Energy
import FiniteDomains.Proofs.Store.Losses
import FiniteDomains.Proofs.Domain.Canonical
import FiniteDomains.Proofs.Domain.Questions
import FiniteDomains.Proofs.Domain.Indexing
import FiniteDomains.Proofs.Variable.Saturation
import FiniteDomains.Proofs.Domain.Neighbours
import FiniteDomains.Proofs.Domain.Order
import FiniteDomains.Proofs.Domain.Text
import FiniteDomains.Proofs.Domain.Splicing
import FiniteDomains.Proofs.Wakeup.Switching
import FiniteDomains.Proofs.Wakeup.Order
import FiniteDomains.Proofs.Store.Names
import FiniteDomains.Proofs.Interval.Steps
import FiniteDomains.Proofs.Domain.Steps
import FiniteDomains.Proofs.Domain.Widths
