import Promscale.Build.Upgrades

/-!
# What a script does

Where the first of its files are noted in the table, a script says so, executes the others in their
order, and notes them too.
-/
namespace Promscale.Build

open Promscale.Lib

namespace Sources

def body (src : Sources) (f : File) : String :=
  replace f.contents extensionVersionPlaceholder src.version

/-- All that is applied once, in its order. -/
def onceFiles (src : Sources) : List File := src.extSchemaFile :: src.incremental.sorted

def migration (src : Sources) (f : File) : Migration := ⟨f.name, src.version, src.body f⟩

end Sources

/-- The rows after a version, whose first files are those that are noted. -/
def noted (rows : List Migration) (src : Sources) : List Migration :=
  rows ++ (src.onceFiles.drop rows.length).map src.migration

section
variable {δ : Type} (execute : String → δ → Except String δ)

/-- The texts of a script that are executed, where the first files are noted. -/
def executed (rows : List Migration) (src : Sources) : List String :=
  ([src.extSchemaFile].drop rows.length).map src.body ++ [src.stopBgw, src.generated] ++
    (src.incremental.sorted.drop (rows.length - 1)).map src.body ++
    src.idempotent.sorted.map src.body

/-- What is said about files that are noted. -/
def skipped (rows : List Migration) (src : Sources) (files : List File) : List Message :=
  (rows.zip files).flatMap fun x => skipMessages x.1 (src.body x.2)

def applied (files : List File) : List Message :=
  files.map fun f => ⟨.log, s!"Applied migration {f.name}"⟩

/-- The warnings about files that are noted with another text. -/
def warnings (rows : List Migration) (src : Sources) (files : List File) : List Message :=
  ((rows.zip files).filter fun x => x.1.body ≠ src.body x.2 ∧
    x.1.name ≠ "001-extension.sql" ∧ x.1.name ≠ "024-adjust_autovacuum.sql").map fun x =>
      ⟨.warning, s!"The contents of migration \"{x.1.name}\" have changed"⟩

def executeAll (texts : List String) (objects : δ) : Except String δ :=
  texts.foldlM (fun objects text => execute text objects) objects

/-- The database with a table of one owner. -/
def Database.of (owner : Nat) (t : Table Migration Migration.constraints) (objects : δ)
    (messages : List Message) : Database δ :=
  ⟨some ⟨owner, some ⟨owner, t⟩⟩, objects, messages⟩

/-- What a part of a script does: the table after it, the texts it has executed and what it has
said. -/
def Effect (owner : Nat) (script : List Statement) (t t' : Table Migration Migration.constraints)
    (texts : List String) (said : List Message) : Prop :=
  ∀ (currentUser : Nat) (objects : δ) (messages : List Message),
    runScript execute currentUser script (.of owner t objects messages) =
      (executeAll execute texts objects).map fun objects' =>
        .of owner t' objects' (messages ++ said)

/-! ## Blocks -/

variable {execute} {owner : Nat} {t t₁ t' : Table Migration Migration.constraints}

namespace Effect

theorem nil : Effect execute owner [] t t [] [] := by
  intro currentUser objects messages
  rw [List.append_nil]
  rfl

theorem append {a b : List Statement} {texts texts' : List String} {said said' : List Message}
    (ha : Effect execute owner a t t₁ texts said)
    (hb : Effect execute owner b t₁ t' texts' said') :
    Effect execute owner (a ++ b) t t' (texts ++ texts') (said ++ said') := by
  intro currentUser objects messages
  calc runScript execute currentUser (a ++ b) (.of owner t objects messages)
      = (runScript execute currentUser a (.of owner t objects messages)).bind
          (runScript execute currentUser b) := List.foldlM_append
    _ = (executeAll execute texts objects).bind fun objects₁ =>
          (executeAll execute texts' objects₁).map fun objects' =>
            .of owner t' objects' (messages ++ (said ++ said')) := by
        rw [ha]
        cases executeAll execute texts objects with
        | error => rfl
        | ok objects₁ =>
          simp only [Except.map, Except.bind, hb currentUser, List.append_assoc]
    _ = (executeAll execute (texts ++ texts') objects).map fun objects' =>
          .of owner t' objects' (messages ++ (said ++ said')) := by
        have happend : executeAll execute (texts ++ texts') objects =
            (executeAll execute texts objects).bind (executeAll execute texts') :=
          List.foldlM_append
        rw [happend]
        cases executeAll execute texts objects <;> rfl

theorem sql (text : String) : Effect execute owner [.sql text] t t [text] [] := by
  intro currentUser objects messages
  simp only [runScript, executeAll, List.foldlM_cons, List.foldlM_nil, Statement.run,
    Database.of, List.append_nil]
  cases execute text objects <;> rfl

theorem idempotent (version : String) (f : File) :
    Effect execute owner [.block (wrap version .idempotent f)] t t
      [replace f.contents extensionVersionPlaceholder version] [] := by
  intro currentUser objects messages
  simp only [runScript, executeAll, List.foldlM_cons, List.foldlM_nil, Statement.run, wrap,
    Database.of, List.append_nil]
  cases execute (replace f.contents extensionVersionPlaceholder version) objects <;> rfl

/-- A file that is noted. -/
theorem skips (src : Sources) {row : Migration} (hrow : row ∈ t.rows) {f : File}
    (hname : row.name = f.name) :
    Effect execute owner [.block (wrap src.version .incremental f)] t t []
      (skipMessages row (src.body f)) := by
  have hfind : (t.rows.find? fun r => r.name = f.name) = some row :=
    t.find?_eq_some_of_mem hrow (by simpa using hname) (by simp [Migration.constraints, hname])
  intro currentUser objects messages
  simp only [runScript, List.foldlM_cons, List.foldlM_nil, Statement.run, wrap, applyIncremental,
    Database.of, hfind]
  rfl

/-- A file that is not noted. -/
theorem applies (src : Sources) (t : Table Migration Migration.constraints) {f : File}
    (hnew : f.name ∉ t.rows.map (·.name)) :
    ∃ t' : Table Migration Migration.constraints, t'.rows = t.rows ++ [src.migration f] ∧
      Effect execute owner [.block (wrap src.version .incremental f)] t t' [src.body f]
        (applied [f]) := by
  have hnone : (t.rows.find? fun r => r.name = f.name) = none := by
    rw [List.find?_eq_none]
    intro r hr hname
    exact hnew (List.mem_map.mpr ⟨r, hr, by simpa using hname⟩)
  have hfree : ∀ r ∈ t.rows, Migration.constraints.conflict r (src.migration f) = false := by
    intro r hr
    have hname : r.name ≠ f.name := fun hname => hnew (List.mem_map.mpr ⟨r, hr, hname⟩)
    simpa [Migration.constraints, Sources.migration] using hname
  cases hinsert : t.insert (src.migration f) rfl with
  | none =>
    obtain ⟨r, hr, hconflict⟩ := (t.insert_eq_none_iff _ rfl).mp hinsert
    rw [hfree r hr] at hconflict
    cases hconflict
  | some t' =>
    refine ⟨t', ((t.insert_eq_some_iff t' _ rfl).mp hinsert).2, ?_⟩
    intro currentUser objects messages
    simp only [Sources.migration, Sources.body] at hinsert
    simp only [runScript, executeAll, List.foldlM_cons, List.foldlM_nil, Statement.run, wrap,
      applyIncremental, Database.of, hnone, hinsert, Sources.body]
    cases execute (replace f.contents extensionVersionPlaceholder src.version) objects <;> rfl

/-- Files that are noted. -/
theorem skipsAll (src : Sources) {rows : List Migration} (hrows : ∀ r ∈ rows, r ∈ t.rows)
    {files : List File} (hnames : rows.map (·.name) = files.map (·.name)) :
    Effect execute owner (files.map fun f => .block (wrap src.version .incremental f)) t t []
      (skipped rows src files) := by
  induction files generalizing rows with
  | nil => simpa [skipped] using nil
  | cons f files ih =>
    cases rows with
    | nil => cases hnames
    | cons row rows =>
      obtain ⟨hname, hnames⟩ := List.cons.inj hnames
      obtain ⟨hrow, hrows⟩ := List.forall_mem_cons.mp hrows
      exact (skips src hrow hname).append (ih hrows hnames)

/-- Files that are not noted. -/
theorem appliesAll (src : Sources) {files : List File} (hdistinct : (files.map (·.name)).Nodup)
    (t : Table Migration Migration.constraints)
    (hnew : ∀ f ∈ files, f.name ∉ t.rows.map (·.name)) :
    ∃ t' : Table Migration Migration.constraints, t'.rows = t.rows ++ files.map src.migration ∧
      Effect execute owner (files.map fun f => .block (wrap src.version .incremental f)) t t'
        (files.map src.body) (applied files) := by
  induction files generalizing t with
  | nil => exact ⟨t, by simp, nil⟩
  | cons f files ih =>
    obtain ⟨hf, hdistinct⟩ := List.nodup_cons.mp hdistinct
    obtain ⟨hnew, hrest⟩ := List.forall_mem_cons.mp hnew
    obtain ⟨t₁, hrows₁, happlies⟩ := applies src t hnew
    have hnew₁ : ∀ f' ∈ files, f'.name ∉ t₁.rows.map (·.name) := by
      intro f' hf'
      rw [hrows₁, List.map_append, List.mem_append, not_or]
      refine ⟨hrest f' hf', ?_⟩
      intro hmem
      have hname : f'.name = f.name := List.mem_singleton.mp hmem
      exact hf (List.mem_map.mpr ⟨f', hf', hname⟩)
    obtain ⟨t', hrows', hall⟩ := ih hdistinct t₁ hnew₁
    refine ⟨t', ?_, happlies.append hall⟩
    rw [hrows', hrows₁, List.append_assoc]
    rfl

/-- Files the first of which are noted. -/
theorem incrementalAll (src : Sources) {files : List File}
    (hdistinct : (files.map (·.name)).Nodup) (t : Table Migration Migration.constraints)
    {rows : List Migration} (hrows : ∀ r ∈ rows, r ∈ t.rows)
    (hnames : rows.map (·.name) = (files.take rows.length).map (·.name))
    (hnew : ∀ f ∈ files.drop rows.length, f.name ∉ t.rows.map (·.name)) :
    ∃ t' : Table Migration Migration.constraints,
      t'.rows = t.rows ++ (files.drop rows.length).map src.migration ∧
      Effect execute owner (files.map fun f => .block (wrap src.version .incremental f)) t t'
        ((files.drop rows.length).map src.body)
        (skipped rows src files ++ applied (files.drop rows.length)) := by
  have hdrop : ((files.drop rows.length).map (·.name)).Nodup :=
    hdistinct.sublist ((List.drop_sublist _ _).map _)
  obtain ⟨t', hrows', happlies⟩ := @appliesAll δ execute owner src _ hdrop t hnew
  refine ⟨t', hrows', ?_⟩
  have hzip : rows.zip (files.take rows.length) = rows.zip files := by
    calc rows.zip (files.take rows.length)
        = (rows.take rows.length).zip (files.take rows.length) := by rw [List.take_length]
      _ = (rows.zip files).take rows.length := List.take_zipWith.symm
      _ = rows.zip files := List.take_of_length_le (by simp)
  have hskips : Effect execute owner ((files.take rows.length).map fun f =>
      .block (wrap src.version .incremental f)) t t [] (skipped rows src files) := by
    have hskips := @skipsAll δ execute owner t src rows hrows _ hnames
    rwa [skipped, hzip] at hskips
  have hboth := hskips.append happlies
  rwa [← List.map_append, List.take_append_drop, List.nil_append] at hboth

theorem idempotentAll (src : Sources) (files : List File) :
    Effect execute owner (files.map fun f => .block (wrap src.version .idempotent f)) t t
      (files.map src.body) [] := by
  induction files with
  | nil => exact nil
  | cons f files ih => exact (idempotent src.version f).append ih

end Effect

/-! ## Scripts -/

/-- The first files are noted. -/
structure Knows (rows : List Migration) (src : Sources) : Prop where
  distinct : (src.onceFiles.map (·.name)).Nodup
  names : rows.map (·.name) = (src.onceFiles.take rows.length).map (·.name)

theorem warnings_skipped (rows : List Migration) (src : Sources) (files : List File) :
    ((skipped rows src files).filter fun m => m.level = .warning) = warnings rows src files := by
  unfold skipped warnings
  induction rows.zip files with
  | nil => rfl
  | cons x rest ih =>
    rw [List.flatMap_cons, List.filter_append, ih]
    by_cases hwarn : x.1.body ≠ src.body x.2 ∧ x.1.name ≠ "001-extension.sql" ∧
        x.1.name ≠ "024-adjust_autovacuum.sql"
    · rw [List.filter_cons_of_pos (by simpa using hwarn), skipMessages, if_pos hwarn]
      rfl
    · rw [List.filter_cons_of_neg (by simpa using hwarn), skipMessages, if_neg hwarn]
      rfl

theorem warnings_applied (files : List File) :
    ((applied files).filter fun m => m.level = .warning) = [] := by
  simp [applied, List.filter_map]

variable (execute) (owner)

/-- The blocks of a script between its first statement and the idempotent ones. -/
theorem effect_blocks (src : Sources) (hdistinct : (src.onceFiles.map (·.name)).Nodup)
    (t : Table Migration Migration.constraints) {rows rows' : List Migration}
    (hrows : t.rows = rows ++ rows')
    (hnames : rows.map (·.name) = ([src.extSchemaFile].take rows.length).map (·.name))
    (hnames' : rows'.map (·.name) =
      (src.incremental.sorted.take rows'.length).map (·.name))
    (hnew : ∀ f ∈ [src.extSchemaFile].drop rows.length, f.name ∉ t.rows.map (·.name))
    (hnew' : ∀ f ∈ src.incremental.sorted.drop rows'.length, f.name ∉ t.rows.map (·.name)) :
    ∃ (t' : Table Migration Migration.constraints) (said : List Message),
      t'.rows = t.rows ++ ([src.extSchemaFile].drop rows.length ++
        src.incremental.sorted.drop rows'.length).map src.migration ∧
      (said.filter fun m => m.level = .warning) = warnings rows src [src.extSchemaFile] ++
        warnings rows' src src.incremental.sorted ∧
      Effect execute owner ([.block (wrap src.version .incremental src.extSchemaFile)] ++
          [.sql src.stopBgw] ++ [.sql src.generated] ++
          src.incremental.sorted.map fun f => .block (wrap src.version .incremental f)) t t'
        (([src.extSchemaFile].drop rows.length).map src.body ++ [src.stopBgw] ++ [src.generated] ++
          (src.incremental.sorted.drop rows'.length).map src.body) said := by
  obtain ⟨hext, hsorted⟩ := List.nodup_cons.mp hdistinct
  obtain ⟨t₁, hrows₁, hfirst⟩ := @Effect.incrementalAll δ execute owner src [src.extSchemaFile]
    (List.nodup_singleton _) t rows (fun r hr => hrows ▸ List.mem_append_left rows' hr) hnames hnew
  have hnew₁ : ∀ f ∈ src.incremental.sorted.drop rows'.length, f.name ∉ t₁.rows.map (·.name) := by
    intro f hf
    rw [hrows₁, List.map_append, List.mem_append, not_or]
    refine ⟨hnew' f hf, ?_⟩
    intro hmem
    obtain ⟨m, hm, hname⟩ := List.mem_map.mp hmem
    obtain ⟨f₀, hf₀, rfl⟩ := List.mem_map.mp hm
    have hsame : f₀ = src.extSchemaFile := List.mem_singleton.mp (List.mem_of_mem_drop hf₀)
    subst hsame
    exact hext (List.mem_map.mpr ⟨f, List.mem_of_mem_drop hf, hname.symm⟩)
  have hmem : ∀ r ∈ rows', r ∈ t₁.rows := by
    intro r hr
    rw [hrows₁, hrows]
    exact List.mem_append_left _ (List.mem_append_right _ hr)
  obtain ⟨t', hrows', hrest⟩ := @Effect.incrementalAll δ execute owner src src.incremental.sorted
    hsorted t₁ rows' hmem hnames' hnew₁
  refine ⟨t', _, ?_, ?_, (((hfirst.append (.sql src.stopBgw)).append (.sql src.generated)).append
    hrest)⟩
  · rw [hrows', hrows₁, List.map_append, List.append_assoc]
  · simp only [List.append_nil, List.filter_append, warnings_skipped, warnings_applied]

/-- A script without the statement that makes the table. -/
theorem effect_script {src : Sources} {script : List Statement} (hscript : src.script = some script)
    (t : Table Migration Migration.constraints) (hknows : Knows t.rows src) :
    ∃ (rest : List Statement) (t' : Table Migration Migration.constraints) (said : List Message),
      script = .migrationTable :: rest ∧ t'.rows = noted t.rows src ∧
      (said.filter fun m => m.level = .warning) = warnings t.rows src src.onceFiles ∧
      Effect execute owner rest t t' (executed t.rows src) said := by
  obtain ⟨blocks, hblocks, rfl⟩ := Option.map_eq_some_iff.mp hscript
  simp only [Sources.renderSql, Option.bind_eq_bind, Option.bind_eq_some_iff,
    Option.some.injEq] at hblocks
  obtain ⟨_, hincremental, _, hidempotent, rfl⟩ := hblocks
  obtain ⟨-, rfl⟩ := renderFile_eq_some_iff.mp hincremental
  obtain ⟨-, rfl⟩ := renderFile_eq_some_iff.mp hidempotent
  -- No file that is not noted has the name of one that is.
  have hfresh : ∀ f ∈ src.onceFiles.drop t.rows.length, f.name ∉ t.rows.map (·.name) := by
    intro f hf hname
    rw [hknows.names] at hname
    have hdisjoint := List.disjoint_take_drop hknows.distinct (le_refl t.rows.length)
    rw [← List.map_take, ← List.map_drop] at hdisjoint
    exact hdisjoint hname (List.mem_map_of_mem hf)
  have hscript : src.renderBootstrap ++ [.sql src.generated] ++
      (src.incremental.sorted.map (wrap src.version .incremental) ++
        src.idempotent.sorted.map (wrap src.version .idempotent)).map .block =
      Statement.migrationTable :: (([.block (wrap src.version .incremental src.extSchemaFile)] ++
        [.sql src.stopBgw] ++ [.sql src.generated] ++
        src.incremental.sorted.map fun f => .block (wrap src.version .incremental f)) ++
        src.idempotent.sorted.map fun f => .block (wrap src.version .idempotent f)) := by
    simp [Sources.renderBootstrap, Function.comp_def]
  have hnames := hknows.names
  cases hrows : t.rows with
  | nil =>
    rw [hrows] at hfresh
    obtain ⟨t', said, hrows', hwarnings, heffect⟩ := @effect_blocks δ execute owner src
      hknows.distinct t [] [] hrows rfl rfl (by simp [hrows]) (by simp [hrows])
    refine ⟨_, t', said ++ [], hscript, ?_, ?_, ?_⟩
    · rw [hrows', hrows]
      rfl
    · rw [List.append_nil, hwarnings]
      rfl
    · have hall := heffect.append (.idempotentAll src src.idempotent.sorted)
      simpa [executed] using hall
  | cons row rows =>
    rw [hrows] at hfresh hnames
    obtain ⟨hname, hnames⟩ := List.cons.inj hnames
    obtain ⟨t', said, hrows', hwarnings, heffect⟩ := @effect_blocks δ execute owner src
      hknows.distinct t [row] rows hrows (by simpa using hname) hnames
      (by simp) (by rw [hrows]; exact hfresh)
    refine ⟨_, t', said ++ [], hscript, ?_, ?_, ?_⟩
    · rw [hrows', hrows]
      rfl
    · rw [List.append_nil, hwarnings, warnings, warnings, ← List.map_append, ← List.filter_append]
      rfl
    · have hall := heffect.append (.idempotentAll src src.idempotent.sorted)
      simpa [executed] using hall

variable {execute} {owner}

theorem createMigrationTable_of (t : Table Migration Migration.constraints) (objects : δ)
    (messages : List Message) :
    createMigrationTable owner (.of owner t objects messages) =
      .ok (.of owner t objects (messages ++ [schemaPresent] ++ [tablePresent])) := by
  simp only [createMigrationTable, Database.of, ne_eq, not_true_eq_false, if_false, bind,
    Except.bind]

theorem createMigrationTable_of_ne {currentUser : Nat} (hne : owner ≠ currentUser)
    (t : Table Migration Migration.constraints) (objects : δ) (messages : List Message) :
    createMigrationTable currentUser (.of owner t objects messages) = .error notSchemaOwner := by
  simp only [createMigrationTable, Database.of, ne_eq, hne, not_false_eq_true, if_true]
  rfl

/-- The rows of the table, if it is there. -/
def Database.rows (d : Database δ) : List Migration :=
  ((d.psCatalog.bind (·.migration)).map (·.table.rows)).getD []

/-- The schema with its table, of one owner, or none of it. -/
def Database.Owned (d : Database δ) (owner : Nat) : Prop :=
  d.psCatalog = none ∨ ∃ t, d.psCatalog = some ⟨owner, some ⟨owner, t⟩⟩

theorem runScript_owned {src : Sources} {script : List Statement}
    (hscript : src.script = some script) {d : Database δ} (howned : d.Owned owner)
    (hknows : Knows d.rows src) :
    ∃ (t' : Table Migration Migration.constraints) (said : List Message),
      t'.rows = noted d.rows src ∧
      (said.filter fun m => m.level = .warning) = warnings d.rows src src.onceFiles ∧
      runScript execute owner script d = (executeAll execute (executed d.rows src) d.objects).map
        fun objects' => .of owner t' objects' (d.messages ++ said) := by
  obtain ⟨psCatalog, objects, messages⟩ := d
  rcases howned with hnone | ⟨t, ht⟩
  · cases hnone
    obtain ⟨rest, t', said, rfl, hrows, hwarnings, heffect⟩ :=
      effect_script execute owner hscript .empty hknows
    exact ⟨t', said, hrows, hwarnings, heffect owner objects messages⟩
  · cases ht
    obtain ⟨rest, t', said, rfl, hrows, hwarnings, heffect⟩ :=
      effect_script execute owner hscript t hknows
    refine ⟨t', [schemaPresent] ++ [tablePresent] ++ said, hrows, ?_, ?_⟩
    · rw [List.filter_append]
      exact hwarnings
    · calc runScript execute owner (.migrationTable :: rest) (.of owner t objects messages)
          = (createMigrationTable owner (.of owner t objects messages)).bind
              (runScript execute owner rest) := rfl
        _ = _ := by
          rw [createMigrationTable_of]
          simp only [Except.bind, heffect owner, List.append_assoc]
          rfl

end

end Promscale.Build
