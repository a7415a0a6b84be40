import Interner.Bytes
import Interner.Config
import Interner.Error
import Interner.Event
import Interner.Generator.Basic
import Interner.Generator.Counter
import Interner.Generator.Draws
import Interner.Generator.Random
import Interner.Generator.Retry
import Interner.Hash
import Interner.Intern
import Interner.Number.Binary64
import Interner.Number.Decimal
import Interner.Number.Numeral
import Interner.Program
import Interner.Proofs.Generator.Exhaustion
import Interner.Proofs.Generator.Fairness
import Interner.Proofs.Generator.Numerals
import Interner.Proofs.Generator.Protocol
import Interner.Proofs.Generator.Retrying
import Interner.Proofs.Generator.Streams
import Interner.Proofs.Generator.Trials
import Interner.Proofs.Generator.Words
import Interner.Proofs.Hash.Retraction
import Interner.Proofs.Number.Order
import Interner.Proofs.Number.Rounding
import Interner.Proofs.Session.Accounting
import Interner.Proofs.Session.Basic
import Interner.Proofs.Session.Capacity
import Interner.Proofs.Session.Drawing
import Interner.Proofs.Session.FirstFree
import Interner.Proofs.Session.Idle
import Interner.Proofs.Session.Insertions
import Interner.Proofs.Session.Integrity
import Interner.Proofs.Session.Interning
import Interner.Proofs.Session.Joining
import Interner.Proofs.Session.Mimicry
import Interner.Proofs.Session.Readings
import Interner.Proofs.Session.Refinement
import Interner.Proofs.Session.Streaming
import Interner.Proofs.Session.Verdicts
import Interner.Proofs.Sharing.Announced
import Interner.Proofs.Sharing.Counting
import Interner.Proofs.Sharing.Linearization
import Interner.Proofs.Sharing.Locked
import Interner.Proofs.Sharing.Machine
import Interner.Proofs.Sharing.Progress
import Interner.Proofs.Sharing.Prompt
import Interner.Proofs.Sharing.Reordering
import Interner.Proofs.Sharing.SharedCounter
import Interner.Proofs.Sharing.Stability
import Interner.Proofs.Store.Batch
import Interner.Proofs.Store.FirstWins
import Interner.Proofs.Store.Lasting
import Interner.Proofs.Store.Programs
import Interner.Proofs.Store.Settled
import Interner.Proofs.Store.Tabled
import Interner.Proofs.Table.Arrangement
import Interner.Proofs.Table.Chain
import Interner.Proofs.Table.Doubling
import Interner.Proofs.Table.Enumeration
import Interner.Proofs.Table.Insertion
import Interner.Proofs.Table.Iteration
import Interner.Proofs.Table.Listing
import Interner.Proofs.Table.Load
import Interner.Proofs.Table.Placement
import Interner.Proofs.Table.Rehash
import Interner.Proofs.Table.Relink
import Interner.Proofs.Table.Room
import Interner.Proofs.Table.Scan
import Interner.Proofs.Table.Sizing
import Interner.Proofs.Table.Splice
import Interner.Proofs.Table.Splitting
import Interner.Proofs.Text.Decoding
import Interner.Proofs.Text.Encoding
import Interner.Store.Backend
import Interner.Store.Basic
import Interner.Store.Plain
import Interner.Table.Basic
import Interner.Table.Cursor
import Interner.Table.Growth
import Interner.Table.Insert
