import Promscale.Build.MigrationFiles
import Promscale.Lib.Run
import Promscale.Lib.Table

/-!
# Installs and upgrades

An install and an upgrade run the same script. It notes in `_ps_catalog.migration` which
incremental files it has applied, and passes over those that are noted there.
-/
namespace Promscale.Build

open Promscale.Lib

/-- What the script of a version is made of. -/
structure Sources where
  version : String
  /-- The contents of `bootstrap/001-create-ext-schema.sql` and `bootstrap/002-stop-bgw.sql`. -/
  createExtSchema : String
  stopBgw : String
  /-- What pgx generates from the Rust code. -/
  generated : String
  incremental : Directory
  idempotent : Directory

inductive Statement where
  | migrationTable
  | sql (text : String)
  | block (b : Block)
  deriving DecidableEq, Repr

namespace Sources

def extSchemaFile (src : Sources) : File := ⟨"001-create-ext-schema.sql", src.createExtSchema⟩

def renderBootstrap (src : Sources) : List Statement :=
  [.migrationTable, .block (wrap src.version .incremental src.extSchemaFile), .sql src.stopBgw]

def renderSql (src : Sources) : Option (List Block) := do
  let incremental ← renderFile src.version src.incremental .incremental
  let idempotent ← renderFile src.version src.idempotent .idempotent
  some (incremental ++ idempotent)

/-- The script as `schema.rs` has it put together. -/
def script (src : Sources) : Option (List Statement) :=
  src.renderSql.map fun blocks =>
    src.renderBootstrap ++ [.sql src.generated] ++ blocks.map .block

end Sources

/-- A script is built when the files of the one directory are numbered from one on without gaps,
and those of the other too, but for any number of 999s at its end; it has all of them in order. -/
theorem scripts_are_built_iff (src : Sources) (script : List Statement) :
    src.script = some script ↔
      (∃ n, src.incremental.sorted.map (fun f => numericPrefix f.name) =
        (List.range' 1 n).map some) ∧
      (∃ k m, k ≤ 998 ∧ src.idempotent.sorted.map (fun f => numericPrefix f.name) =
        (List.range' 1 k ++ List.replicate m 999).map some) ∧
      script = src.renderBootstrap ++ [.sql src.generated] ++
        (src.incremental.sorted.map (wrap src.version .incremental) ++
          src.idempotent.sorted.map (wrap src.version .idempotent)).map .block := by
  simp only [Sources.script, Sources.renderSql, Option.map_eq_some_iff, Option.bind_eq_bind,
    Option.bind_eq_some_iff, renderFile_eq_some_iff, InOrder, Option.some.injEq]
  constructor
  · rintro ⟨_, ⟨_, ⟨⟨numbers, hnumbers, horder⟩, rfl⟩, _, ⟨⟨_, hidempotent, k, m, hk, rfl⟩, rfl⟩,
      rfl⟩, rfl⟩
    exact ⟨⟨numbers.length, horder ▸ hnumbers⟩, ⟨k, m, hk, hidempotent⟩, rfl⟩
  · rintro ⟨⟨n, hnumbers⟩, ⟨k, m, hk, hidempotent⟩, rfl⟩
    exact ⟨_, ⟨_, ⟨⟨_, hnumbers, by simp⟩, rfl⟩, _, ⟨⟨_, hidempotent, k, m, hk, rfl⟩, rfl⟩, rfl⟩, rfl⟩

/-! ## What the script does -/

/-- A row of `_ps_catalog.migration`. -/
structure Migration where
  name : String
  appliedAtVersion : String
  body : String
  deriving DecidableEq, Repr

def Migration.constraints : Constraints Migration where
  conflict a b := a.name = b.name
  symm a b := by simp only [eq_comm]
  check _ := true

inductive Level where
  | log | warning
  deriving DecidableEq, Repr

structure Message where
  level : Level
  text : String
  deriving DecidableEq, Repr

structure MigrationTable where
  owner : Nat
  table : Table Migration Migration.constraints

/-- The schema `_ps_catalog`, with the table if it is there. -/
structure PsCatalog where
  owner : Nat
  migration : Option MigrationTable

structure Database (δ : Type) where
  psCatalog : Option PsCatalog
  objects : δ
  messages : List Message

section
variable {δ : Type}

def notSchemaOwner : String :=
  "Only the owner of the \"_ps_catalog\" schema can install/upgrade this extension"

def notTableOwner : String :=
  "Only the owner of the \"_ps_catalog.migration\" table can install/upgrade this extension"

def schemaPresent : Message :=
  ⟨.log, "Schema \"_ps_catalog\" is already present, skipping creation"⟩

def tablePresent : Message :=
  ⟨.log, "Table \"_ps_catalog.migration\" is already present, skipping creation"⟩

/-- Who comes upon a schema or a table of somebody else must not go on. -/
def createMigrationTable (currentUser : Nat) (d : Database δ) : Except String (Database δ) := do
  let (s, messages) ← match d.psCatalog with
    | some s =>
      if s.owner ≠ currentUser then .error notSchemaOwner
      else .ok (s, d.messages ++ [schemaPresent])
    | none => .ok (⟨currentUser, none⟩, d.messages)
  match s.migration with
  | some t =>
    if t.owner ≠ currentUser then .error notTableOwner
    else .ok { d with psCatalog := some s, messages := messages ++ [tablePresent] }
  | none =>
    .ok { d with psCatalog := some { s with migration := some ⟨currentUser, .empty⟩ }, messages }

/-- What is said about a file that is noted already. -/
def skipMessages (row : Migration) (body : String) : List Message :=
  ⟨.log, s!"Migration \"{row.name}\" already applied, skipping"⟩ ::
    if row.body ≠ body ∧ row.name ≠ "001-extension.sql" ∧ row.name ≠ "024-adjust_autovacuum.sql"
    then [⟨.warning, s!"The contents of migration \"{row.name}\" have changed"⟩]
    else []

-- What PostgreSQL does with the text of a script, which leaves the schema `_ps_catalog` alone.
variable (execute : String → δ → Except String δ)

def applyIncremental (filename version body : String) (d : Database δ) :
    Except String (Database δ) :=
  match d.psCatalog with
  | some ⟨schemaOwner, some ⟨owner, t⟩⟩ =>
    match t.rows.find? fun row => row.name = filename with
    | some row => .ok { d with messages := d.messages ++ skipMessages row body }
    | none => do
      let objects ← execute body d.objects
      match t.insert ⟨filename, version, body⟩ rfl with
      | none => .error "duplicate key value violates unique constraint \"migration_pkey\""
      | some t' => .ok {
        psCatalog := some ⟨schemaOwner, some ⟨owner, t'⟩⟩
        objects
        messages := d.messages ++ [⟨.log, s!"Applied migration {filename}"⟩] }
  | _ => .error "relation \"_ps_catalog.migration\" does not exist"

def Statement.run (currentUser : Nat) (statement : Statement) (d : Database δ) :
    Except String (Database δ) :=
  match statement with
  | .migrationTable => createMigrationTable currentUser d
  | .sql text => do
    let objects ← execute text d.objects
    .ok { d with objects }
  | .block (.incremental filename version body) => applyIncremental execute filename version body d
  | .block (.idempotent _ body) => do
    let objects ← execute body d.objects
    .ok { d with objects }

/-- All of it is one transaction. -/
def runScript (currentUser : Nat) (script : List Statement) (d : Database δ) :
    Except String (Database δ) :=
  script.foldlM (fun d statement => statement.run execute currentUser d) d

inductive Event where
  | upgraded (currentUser : Nat) (src : Sources)
  | failed
  | used

/-- Installs and upgrades that go through or fail, and what else is done with the database. -/
inductive Step (d : Database δ) : Event → Database δ → Prop
  | upgraded {currentUser : Nat} {src : Sources} {script : List Statement} {d' : Database δ}
      (hscript : src.script = some script) (hrun : runScript execute currentUser script d = .ok d') :
      Step d (.upgraded currentUser src) d'
  | failed {currentUser : Nat} {src : Sources} {script : List Statement} {message : String}
      (hscript : src.script = some script)
      (hrun : runScript execute currentUser script d = .error message) : Step d .failed d
  | used (objects : δ) : Step d .used { d with objects }

end

end Promscale.Build
