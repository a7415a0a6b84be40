import Interner.Config
import Interner.Hash

/-!
A hash table of strings. Nodes stay in an arena for good and are named by their keys; each bucket
heads a chain of nodes in increasing order of hash. What only a broken table can show is a `Fault`.
-/

namespace Interner

/-- The place of a node in the arena. -/
abbrev Key := Nat

structure Node (w : Width) where
  hash : Hash w
  next : Option Key
  bytes : Bytes
  deriving DecidableEq, Repr

namespace Node

variable {w : Width}

def ofContent (hash : Hash w) (next : Option Key) (content : Bytes) : Node w :=
  ⟨hash, next, Bytes.terminated content⟩

def content (node : Node w) : Bytes := Bytes.withoutLast node.bytes

end Node

inductive Fault where
  | noBuckets
  | bucketOutOfRange (bucket : Nat)
  | missingNode (key : Key)
  | endlessChain
  | unsortedChain (key : Key)
  deriving DecidableEq, Repr

structure Table (w : Width) where
  nodes : Array (Node w)
  heads : Array (Option Key)
  maxLoadFactor : Binary64
  /-- The table grows before it would hold this many strings. -/
  threshold : Nat
  deriving DecidableEq, Repr

/-- Where a hash belongs in the chain of its bucket. -/
inductive Position where
  | occupied (key : Key)
  | vacant (after : Option Key)
  deriving DecidableEq, Repr

/-- The integer part of the rounded product of both, as a 64-bit word. -/
def growthThreshold (buckets : Nat) (maxLoadFactor : Binary64) : Nat :=
  ((Binary64.ofNat buckets).times maxLoadFactor).floorWord

namespace Table

variable {w : Width}

def ofConfig (config : Config) : Table w where
  nodes := #[]
  heads := Array.replicate config.buckets none
  maxLoadFactor := config.maxLoadFactor
  threshold := growthThreshold config.buckets config.maxLoadFactor

def standard : Table w := ofConfig {}

def create (config : Config) : Except ConfigError (Table w) := do
  config.validate
  return ofConfig config

def size (table : Table w) : Nat := table.nodes.size

def isEmpty (table : Table w) : Bool := table.size == 0

def bucketCount (table : Table w) : Nat := table.heads.size

def bucketAmong (hash : Hash w) (count : Nat) : Except Fault Nat :=
  match Hash.bucket? hash count with
  | some bucket => .ok bucket
  | none => .error .noBuckets

def bucketOf (table : Table w) (hash : Hash w) : Except Fault Nat :=
  bucketAmong hash table.bucketCount

def nodeAt (table : Table w) (key : Key) : Except Fault (Node w) :=
  match table.nodes[key]? with
  | some node => .ok node
  | none => .error (.missingNode key)

def headOf (table : Table w) (bucket : Nat) : Except Fault (Option Key) :=
  match table.heads[bucket]? with
  | some head => .ok head
  | none => .error (.bucketOutOfRange bucket)

/-- Walks a chain up to the first hash that is not smaller. No chain is longer than the arena. -/
def findFrom (table : Table w) (hash : Hash w) : Nat → Option Key → Except Fault (Option Key)
  | _, none => .ok none
  | 0, some _ => .error .endlessChain
  | left + 1, some key => do
      let node ← table.nodeAt key
      if hash ≤ node.hash then
        return if node.hash = hash then some key else none
      else findFrom table hash left node.next

def find (table : Table w) (hash : Hash w) : Except Fault (Option Key) := do
  let bucket ← table.bucketOf hash
  let head ← table.headOf bucket
  table.findFrom hash table.size head

def positionFrom (table : Table w) (hash : Hash w) :
    Nat → Option Key → Option Key → Except Fault Position
  | _, after, none => .ok (.vacant after)
  | 0, _, some _ => .error .endlessChain
  | left + 1, after, some key => do
      let node ← table.nodeAt key
      if node.hash = hash then return .occupied key
      else if hash < node.hash then return .vacant after
      else positionFrom table hash left (some key) node.next

/-- Where `hash` sits in the chain of `bucket`. -/
def position (table : Table w) (bucket : Nat) (hash : Hash w) : Except Fault Position := do
  let head ← table.headOf bucket
  table.positionFrom hash table.size none head

def successor (table : Table w) (bucket : Nat) : Option Key → Except Fault (Option Key)
  | none => table.headOf bucket
  | some key => do
      let node ← table.nodeAt key
      return node.next

/-- Adds a node to the arena and points `after`, or else the bucket, at it. -/
def link (table : Table w) (bucket : Nat) (after : Option Key) (node : Node w) :
    Except Fault (Table w) :=
  let key := table.size
  match after with
  | none =>
      if bucket < table.bucketCount then
        .ok { table with
          nodes := table.nodes.push node
          heads := table.heads.setIfInBounds bucket (some key) }
      else .error (.bucketOutOfRange bucket)
  | some previous => do
      let found ← table.nodeAt previous
      return { table with
        nodes := (table.nodes.setIfInBounds previous { found with next := some key }).push node }

/-- Stores `content` under `hash` at a vacant position of `bucket`. -/
def add (table : Table w) (bucket : Nat) (after : Option Key) (hash : Hash w) (content : Bytes) :
    Except Fault (Table w) := do
  let next ← table.successor bucket after
  table.link bucket after (Node.ofContent hash next content)

def lookup (table : Table w) (hash : Hash w) : Except Fault (Option Bytes) := do
  match ← table.find hash with
  | none => return none
  | some key =>
      let node ← table.nodeAt key
      return some node.bytes

def loadFactor (table : Table w) : Binary64 :=
  (Binary64.ofNat table.size).dividedBy (Binary64.ofNat table.bucketCount)

def summary (table : Table w) : String :=
  "MapDatabase \x7b len: " ++ toString table.size ++ ", buckets: " ++ toString table.bucketCount ++
    ", max_load_factor: " ++ NumberFormat.detailed.write table.maxLoadFactor ++ " \x7d"

end Table

end Interner
