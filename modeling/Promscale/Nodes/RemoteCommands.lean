import Promscale.Lib.RowNumbers
import Promscale.Lib.Table

/-!
# Remote commands

`execute_everywhere` executes a command on the access node and on every data node, and keeps
commands with a key for the data nodes that are added later. Their order is that of a sequence, put
right at the end of every install and upgrade.
-/
namespace Promscale.Nodes

open Promscale.Lib

/-- A row of `_prom_catalog.remote_commands`. -/
structure RemoteCommand where
  key : String
  seq : Nat
  transactional : Bool
  command : String
  deriving DecidableEq, Repr

def RemoteCommand.constraints : Constraints RemoteCommand where
  conflict a b := a.key = b.key
  symm a b := by simp only [eq_comm]
  check _ := true

/-- The errors that `execute_everywhere` tells apart. -/
inductive SqlError where
  | undefinedFunction
  | featureNotSupported
  | sequenceLimit
  | other (message : String)
  deriving DecidableEq, Repr

/-- What `distributed_exec` is in this database. -/
inductive Distribution where
  | missing
  | notAccessNode
  | accessNode
  deriving DecidableEq, Repr

structure Cluster (δ : Type) where
  remoteCommands : Table RemoteCommand RemoteCommand.constraints
  /-- What `nextval` of `remote_commands_seq_seq` returns next. -/
  nextSeq : Nat
  restoreInProgress : Bool
  distribution : Distribution
  accessNode : δ
  dataNodes : List (String × δ)

/-- A sequence of type `int`. -/
def MAX_SEQ : Nat := 2147483647

namespace Cluster

variable {δ : Type}

/-- The sequence goes on even where the key is there already. -/
def upsert (key command : String) (transactional : Bool) (s : Cluster δ) :
    Except SqlError (Cluster δ) :=
  if MAX_SEQ < s.nextSeq then .error .sequenceLimit
  else
    match s.remoteCommands.insert ⟨key, s.nextSeq, transactional, command⟩ rfl with
    | some remoteCommands => .ok { s with remoteCommands, nextSeq := s.nextSeq + 1 }
    | none => .ok { s with
      remoteCommands := s.remoteCommands.update
        (fun c => if c.key = key then { c with command, transactional } else c)
        (by intro a b; split <;> split <;> rfl) (fun _ => rfl)
      nextSeq := s.nextSeq + 1 }

/-- Only commands with a key are kept. -/
def keep (commandKey : Option String) (command : String) (transactional : Bool) (s : Cluster δ) :
    Except SqlError (Cluster δ) :=
  match commandKey with
  | some key => s.upsert key command transactional
  | none => .ok s

-- What a node makes of a command.
variable (execute : String → δ → Except SqlError δ)

def distributedExec (command : String) (s : Cluster δ) : Except SqlError (List (String × δ)) :=
  match s.distribution with
  | .missing => .error .undefinedFunction
  | .notAccessNode => .error .featureNotSupported
  | .accessNode => s.dataNodes.mapM fun node => do
    let d ← execute command node.2
    .ok (node.1, d)

def executeEverywhere (commandKey : Option String) (command : String) (transactional : Bool)
    (s : Cluster δ) : Except SqlError (Cluster δ) := do
  let s ← s.keep commandKey command transactional
  let accessNode ← execute command s.accessNode
  let s := { s with accessNode }
  if s.restoreInProgress then .ok s
  else
    match s.distributedExec execute command with
    | .ok dataNodes => .ok { s with dataNodes }
    | .error .undefinedFunction => .ok s
    | .error .featureNotSupported => .ok s
    | .error e => .error e

def updateExecuteEverywhereEntry (commandKey command : String) (transactional : Bool)
    (s : Cluster δ) : Cluster δ :=
  { s with
    remoteCommands := s.remoteCommands.update
      (fun c => if c.key = commandKey then { c with command, transactional } else c)
      (by intro a b; split <;> split <;> rfl) (fun _ => rfl) }

/-- `DELETE FROM _prom_catalog.remote_commands WHERE key = ..` -/
def deleteCommand (key : String) (s : Cluster δ) : Cluster δ :=
  { s with remoteCommands := s.remoteCommands.delete fun c => c.key = key }

/-- The rows with `ORDER BY seq asc`. -/
def commands (s : Cluster δ) : List RemoteCommand := orderBy RemoteCommand.seq s.remoteCommands.rows

/-- Every command in the order of the sequence, on one node. -/
def addPromNode (nodeName : String) (s : Cluster δ) : Except SqlError (Cluster δ) := do
  match s.distribution with
  | .missing => .error .undefinedFunction
  | .notAccessNode => .error .featureNotSupported
  | .accessNode => do
    let dataNodes ← s.dataNodes.mapM fun node =>
      if node.1 = nodeName then do
        let d ← s.commands.foldlM (fun d c => execute c.command d) node.2
        .ok (node.1, d)
      else .ok node
    .ok { s with dataNodes }

/-! ## The end of every install and upgrade -/

/-- The commands of the extension, as `999-last.sql` has them. -/
def managed : List (String × Nat) :=
  [("create_prom_reader", 1),
    ("create_prom_writer", 2),
    ("create_prom_modifier", 3),
    ("create_prom_admin", 4),
    ("create_prom_maintenance", 5),
    ("grant_prom_reader_prom_writer", 6),
    ("tracing_types", 7),
    ("grant_all_roles_to_extowner", 8),
    ("_prom_catalog.do_decompress_chunks_after", 9),
    ("_prom_catalog.compress_old_chunks", 10)]

def managedKeys : List String := managed.map (·.1)

/-- `999 + row_number() OVER (ORDER BY seq)` over the other commands. -/
def otherNumbers (rows : List RemoteCommand) : List (RemoteCommand × Nat) :=
  (rowNumbers (fun a b => a.seq ≤ b.seq) (rows.filter fun c => c.key ∉ managedKeys)).map
    fun x => (x.1, 999 + x.2)

def newSeq (rows : List RemoteCommand) (c : RemoteCommand) : Nat :=
  match managed.lookup c.key with
  | some seq => seq
  | none =>
    match (otherNumbers rows).find? fun x => x.1.key = c.key with
    | some x => x.2
    | none => c.seq

/-- The commands of the extension first, the others after them from 1000 on. -/
def arrange (s : Cluster δ) : Cluster δ :=
  let remoteCommands := s.remoteCommands.update
    (fun c => { c with seq := newSeq s.remoteCommands.rows c }) (fun _ _ => rfl) (fun _ => rfl)
  { s with
    remoteCommands
    nextSeq := max 1000 (((remoteCommands.rows.map (·.seq)).max?.map (· + 1)).getD 0) }

/-! ## Backups -/

/-- What pg_dump writes: the rows `where seq >= 1000`, and the sequence. -/
def dump (s : Cluster δ) : List RemoteCommand × Nat :=
  (s.remoteCommands.rows.filter fun c => 1000 ≤ c.seq, s.nextSeq)

/-- The rows are copied into the table of an extension that has just been created. -/
def load (dumped : List RemoteCommand × Nat) (s : Cluster δ) : Option (Cluster δ) := do
  let remoteCommands ← dumped.1.foldlM (fun t c => t.insert c rfl) s.remoteCommands
  some { s with remoteCommands, nextSeq := dumped.2 }

end Cluster

end Promscale.Nodes
