import Liasse.Codes.Numeral
import Liasse.Codes.Sorted
import Liasse.Value.Basic
import Liasse.KeyEnc.Decimal
import Liasse.KeyEnc.Order
import Liasse.KeyEnc.Canonical
import Liasse.Store.Memory
import Liasse.Store.History
import Liasse.Store.Agreement
import Liasse.Store.Address
import Liasse.Store.Record
import Liasse.Codes.Merge
import Liasse.Codes.Listing
import Liasse.Codes.Table
import Liasse.History.Coordinate
import Liasse.History.Laws
import Liasse.History.Validity
import Liasse.Runtime.Applied
import Liasse.Runtime.Rewritten
import Liasse.History.Family
import Liasse.Keys.Operator
import Liasse.Expr.Tree
import Liasse.Contract.Substitution
import Liasse.Host.Refusal
import Liasse.Bucket.Unique
import Liasse.Expr.Evaluation
import Liasse.Live.Watch
import Liasse.Live.Resume
import Liasse.Live.Frontier
import Liasse.Surface.Enumeration
import Liasse.Surface.Execution
import Liasse.Pg.Refinement
import Liasse.Modules.Boundary
import Liasse.Wire.RoundTrip
import Liasse.Pg.Durable
import Liasse.Coverage.Agreement
import Liasse.Blobs.Placement
import Liasse.Blobs.Copies
import Liasse.Modules.Delivery
import Liasse.Expr.Division
import Liasse.Expr.Contexts
import Liasse.Syntax.Parse
import Liasse.Connect.Reflection
import Liasse.Host.Conformance
import Liasse.Keys.Cose
import Liasse.Runtime.Defaults
import Liasse.Runtime.Placement
import Liasse.Surface.Extract
import Liasse.Runtime.Precision
import Liasse.Bucket.Calendar
import Liasse.Bucket.Partition
import Liasse.Pg.SortEnc
import Liasse.Wire.Scalars
import Liasse.Pg.KeyWire
import Liasse.Pg.Transition
import Liasse.Store.Delivery
import Liasse.Surface.Completion
import Liasse.Live.Retention
import Liasse.Runtime.Generator
import Liasse.Value.Identity
import Liasse.Live.Stream
import Liasse.Connect.Offers
import Liasse.Pg.LogRecord
import Liasse.Meter.Funding
import Liasse.Ident.Path
import Liasse.Runtime.Difference
import Liasse.Surface.Reinsertion
import Liasse.Store.Lifetime
import Liasse.Runtime.Validation
