import Promscale.Build.UpgradeEffects

/-!
# What upgrades have applied

Each incremental file is applied by the first version that has it and not again, whatever versions
are installed one after the other, as long as files are only added.
-/
namespace Promscale.Build

open Promscale.Lib

section
variable {δ : Type} {execute : String → δ → Except String δ}

/-- The versions that were installed, and by whom. -/
def upgrades (trace : List (Event × Database δ)) : List (Nat × Sources) :=
  trace.filterMap fun x =>
    match x.1 with
    | .upgraded currentUser src => some (currentUser, src)
    | _ => none

/-- One version comes after another one. -/
structure Sources.Grows (src src' : Sources) : Prop where
  files : ∀ f ∈ src.incremental.files, ∃ f' ∈ src'.incremental.files, f'.name = f.name

theorem Sources.built_of_script {src : Sources} {script : List Statement}
    (h : src.script = some script) :
    ∃ blocks, renderFile src.version src.incremental .incremental = some blocks := by
  obtain ⟨blocks, hblocks, -⟩ := Option.map_eq_some_iff.mp h
  simp only [Sources.renderSql, Option.bind_eq_bind, Option.bind_eq_some_iff] at hblocks
  obtain ⟨incremental, hincremental, -⟩ := hblocks
  exact ⟨incremental, hincremental⟩

theorem Sources.nodup_onceFiles {src : Sources}
    (hext : ∀ f ∈ src.incremental.files, f.name ≠ src.extSchemaFile.name) :
    (src.onceFiles.map (·.name)).Nodup := by
  have hsorted : (src.incremental.sorted.map (·.name)).Nodup := by
    have hfiles : (src.incremental.files.map (·.name)).Nodup :=
      List.pairwise_map.mpr src.incremental.distinct
    exact ((List.perm_insertionSort _ _).map _).nodup_iff.mpr hfiles
  refine List.nodup_cons.mpr ⟨?_, hsorted⟩
  intro hmem
  obtain ⟨f, hf, hname⟩ := List.mem_map.mp hmem
  exact hext f (Directory.mem_sorted.mp hf) hname

/-- What the table has after some versions. -/
def recorded (srcs : List Sources) : List Migration := srcs.foldl noted []

/-- The table has the files of the last version, whose user owns it. -/
structure Database.Has (d : Database δ) (currentUser : Nat) (src : Sources) : Prop where
  owned : ∃ t, d.psCatalog = some ⟨currentUser, some ⟨currentUser, t⟩⟩
  names : d.rows.map (·.name) = src.onceFiles.map (·.name)
  built : ∃ blocks, renderFile src.version src.incremental .incremental = some blocks

/-- What is true of the database after some upgrades. -/
structure Upgraded (ups : List (Nat × Sources)) (d : Database δ) : Prop where
  rows : d.rows = recorded (ups.map (·.2))
  none : ups = [] → d.psCatalog = none
  last : ∀ x, ups.getLast? = some x → d.Has x.1 x.2 ∧ ∀ y ∈ ups, y.1 = x.1

/-- A version with the files of the one before it and more has them first. -/
theorem Database.Has.knows {d : Database δ} {currentUser : Nat} {src src' : Sources}
    (h : d.Has currentUser src) {script : List Statement} (hscript : src'.script = some script)
    (hext : ∀ f ∈ src'.incremental.files, f.name ≠ src'.extSchemaFile.name)
    (hgrows : src.Grows src') : Knows d.rows src' where
  distinct := Sources.nodup_onceFiles hext
  names := by
    obtain ⟨blocks, hblocks⟩ := h.built
    obtain ⟨blocks', hblocks'⟩ := Sources.built_of_script hscript
    have hprefix : src.onceFiles.map (·.name) <+: src'.onceFiles.map (·.name) :=
      (List.prefix_cons_inj _).mpr (sorted_isPrefix hblocks hblocks' hgrows.files)
    have hlength : (src.onceFiles.map (·.name)).length = d.rows.length := by
      rw [← h.names, List.length_map]
    rw [h.names, List.prefix_iff_eq_take.mp hprefix, hlength, List.map_take]

theorem noted_names {rows : List Migration} {src : Sources} (h : Knows rows src) :
    (noted rows src).map (·.name) = src.onceFiles.map (·.name) := by
  have hnames : ((src.onceFiles.drop rows.length).map src.migration).map (·.name) =
      (src.onceFiles.drop rows.length).map (·.name) := by
    rw [List.map_map]
    rfl
  rw [noted, List.map_append, h.names, hnames, ← List.map_append, List.take_append_drop]

theorem runScript_other {src : Sources} {script : List Statement}
    (hscript : src.script = some script) {d : Database δ} {owner currentUser : Nat}
    (howned : ∃ t, d.psCatalog = some ⟨owner, some ⟨owner, t⟩⟩) (hne : owner ≠ currentUser) :
    runScript execute currentUser script d = .error notSchemaOwner := by
  obtain ⟨blocks, -, rfl⟩ := Option.map_eq_some_iff.mp hscript
  obtain ⟨psCatalog, objects, messages⟩ := d
  obtain ⟨t, ht⟩ := howned
  cases ht
  have hfirst := createMigrationTable_of_ne hne t objects messages
  simp only [Sources.renderBootstrap, List.cons_append, runScript, List.foldlM_cons, Statement.run]
  rw [Database.of] at hfirst
  rw [hfirst]
  rfl

namespace Upgraded

variable {ups : List (Nat × Sources)} {d : Database δ}

/-- The versions that may come next. -/
structure MayFollow (ups : List (Nat × Sources)) (src : Sources) : Prop where
  extSchema : ∀ f ∈ src.incremental.files, f.name ≠ src.extSchemaFile.name
  grows : ∀ x ∈ ups, x.2.Grows src

theorem knows (h : Upgraded ups d) {src : Sources} {script : List Statement}
    (hscript : src.script = some script) (hnext : MayFollow ups src) : Knows d.rows src := by
  cases hlast : ups.getLast? with
  | none =>
    have hnil := List.getLast?_eq_none_iff.mp hlast
    have hrows : d.rows = [] := by
      rw [h.rows, hnil]
      rfl
    rw [hrows]
    exact ⟨Sources.nodup_onceFiles hnext.extSchema, rfl⟩
  | some x =>
    exact (h.last x hlast).1.knows hscript hnext.extSchema
      (hnext.grows x (List.mem_of_getLast? hlast))

/-- The next upgrade is the first one, or done by who did the others. -/
theorem owned (h : Upgraded ups d) {currentUser : Nat}
    (howner : ∀ x, ups.getLast? = some x → x.1 = currentUser) : d.Owned currentUser := by
  cases hlast : ups.getLast? with
  | none => exact .inl (h.none (List.getLast?_eq_none_iff.mp hlast))
  | some x => exact .inr (howner x hlast ▸ (h.last x hlast).1.owned)

theorem step (h : Upgraded ups d) {d' : Database δ} {currentUser : Nat} {src : Sources}
    {script : List Statement} (hscript : src.script = some script)
    (hrun : runScript execute currentUser script d = .ok d') (hnext : MayFollow ups src) :
    Upgraded (ups ++ [(currentUser, src)]) d' := by
  have hknows := h.knows hscript hnext
  have howner : ∀ x, ups.getLast? = some x → x.1 = currentUser := by
    intro x hlast
    by_contra hne
    rw [runScript_other hscript (h.last x hlast).1.owned hne] at hrun
    cases hrun
  obtain ⟨t', said, hrows, -, heffect⟩ :=
    @runScript_owned δ execute currentUser src script hscript d (h.owned howner) hknows
  rw [hrun] at heffect
  obtain ⟨objects', -, hd'⟩ : ∃ objects', executeAll execute (executed d.rows src) d.objects =
      .ok objects' ∧ d' = .of currentUser t' objects' (d.messages ++ said) := by
    cases hall : executeAll execute (executed d.rows src) d.objects with
    | error message =>
      rw [hall] at heffect
      cases heffect
    | ok objects' =>
      rw [hall] at heffect
      cases heffect
      exact ⟨objects', rfl, rfl⟩
  have hrows' : d'.rows = noted d.rows src := by
    rw [hd']
    exact hrows
  refine ⟨?_, by simp, ?_⟩
  · rw [hrows', h.rows, recorded, recorded, List.map_append, List.foldl_append]
    rfl
  · intro x hx
    rw [List.getLast?_concat] at hx
    cases hx
    refine ⟨⟨⟨t', by rw [hd']; rfl⟩, ?_, Sources.built_of_script hscript⟩, ?_⟩
    · rw [hrows', noted_names hknows]
    · intro y hy
      rcases List.mem_append.mp hy with hy | hy
      · cases hlast : ups.getLast? with
        | none =>
          rw [List.getLast?_eq_none_iff.mp hlast] at hy
          cases hy
        | some x => exact ((h.last x hlast).2 y hy).trans (howner x hlast)
      · rw [List.mem_singleton.mp hy]

end Upgraded

/-- Files are only added from version to version. -/
structure GrowingOnly (ups : List (Nat × Sources)) : Prop where
  extSchema : ∀ x ∈ ups, ∀ f ∈ x.2.incremental.files, f.name ≠ x.2.extSchemaFile.name
  grows : ups.Pairwise fun x y => x.2.Grows y.2

theorem GrowingOnly.snoc {ups : List (Nat × Sources)} {y : Nat × Sources}
    (h : GrowingOnly (ups ++ [y])) : GrowingOnly ups ∧ Upgraded.MayFollow ups y.2 := by
  obtain ⟨hups, -, hlast⟩ := List.pairwise_append.mp h.grows
  exact ⟨⟨fun x hx => h.extSchema x (List.mem_append_left _ hx), hups⟩,
    ⟨h.extSchema y (by simp), fun x hx => hlast x hx y (List.mem_singleton_self y)⟩⟩

variable {d₀ d : Database δ} {trace : List (Event × Database δ)}

theorem upgraded_of_run (hinit : d₀.psCatalog = none) (h : Run (Step execute) d₀ trace d)
    (hgrowing : GrowingOnly (upgrades trace)) : Upgraded (upgrades trace) d := by
  induction h with
  | nil => exact ⟨by simp [Database.rows, hinit]; rfl, fun _ => hinit, by simp [upgrades]⟩
  | snoc hrun hstep ih =>
    rename_i trace s s' e
    have happend : upgrades (trace ++ [(e, s')]) = upgrades trace ++ upgrades [(e, s')] :=
      List.filterMap_append
    rw [happend] at hgrowing ⊢
    cases hstep with
    | upgraded hscript hrun =>
      obtain ⟨hbefore, hnext⟩ := hgrowing.snoc
      exact (ih hbefore).step hscript hrun hnext
    | failed =>
      simpa [upgrades] using ih (by simpa [upgrades] using hgrowing)
    | used objects =>
      have hups : upgrades [((.used : Event), { s with objects })] = [] := rfl
      rw [hups, List.append_nil] at hgrowing ⊢
      have hs := ih hgrowing
      exact ⟨hs.rows, hs.none, fun x hx => ⟨⟨(hs.last x hx).1.owned, (hs.last x hx).1.names,
        (hs.last x hx).1.built⟩, (hs.last x hx).2⟩⟩

/-- A version, and one with another file. -/
def firstVersion : Sources where
  version := "0.7.0"
  createExtSchema := "CREATE SCHEMA _prom_ext;"
  stopBgw := "SELECT 1;"
  generated := ""
  incremental := ⟨[⟨"001-tables.sql", "CREATE TABLE a();"⟩], by decide⟩
  idempotent := ⟨[⟨"001-base.sql", "SELECT 2;"⟩], by decide⟩

def secondVersion : Sources where
  version := "0.8.0"
  createExtSchema := "CREATE SCHEMA _prom_ext;"
  stopBgw := "SELECT 1;"
  generated := ""
  incremental := ⟨[⟨"002-views.sql", "CREATE VIEW b AS SELECT 1;"⟩,
    ⟨"001-tables.sql", "CREATE TABLE a();"⟩], by decide⟩
  idempotent := ⟨[⟨"001-base.sql", "SELECT 3;"⟩, ⟨"999-last.sql", "SELECT 4;"⟩], by decide⟩

/-- A database that keeps the texts it has executed. -/
def logTexts (text : String) (texts : List String) : Except String (List String) :=
  .ok (texts ++ [text])

theorem firstVersion_grows : firstVersion.Grows secondVersion where
  files f hf := by
    rw [List.mem_singleton.mp hf]
    exact ⟨_, List.mem_cons_of_mem _ (List.mem_singleton_self _), rfl⟩

theorem growingOnly_twoVersions : GrowingOnly [(10, firstVersion), (10, secondVersion)] where
  extSchema := by decide
  grows := by
    refine List.pairwise_pair.mpr ?_
    exact firstVersion_grows

/-- After any installs and upgrades, with whatever between them, the table has each file of the last
version once and in order, as the first version had it that was installed with it, and one user has
done them all. -/
theorem migrations_are_noted_once (hinit : d₀.psCatalog = none)
    (h : Run (Step execute) d₀ trace d) (hgrowing : GrowingOnly (upgrades trace))
    {x : Nat × Sources} (hlast : (upgrades trace).getLast? = some x) :
    d.rows.map (·.name) = x.2.onceFiles.map (·.name) ∧ (d.rows.map (·.name)).Nodup ∧
      d.rows = recorded ((upgrades trace).map (·.2)) ∧ ∀ y ∈ upgrades trace, y.1 = x.1 := by
  have hupgraded := upgraded_of_run hinit h hgrowing
  obtain ⟨hhas, hsame⟩ := hupgraded.last x hlast
  refine ⟨hhas.names, ?_, hupgraded.rows, hsame⟩
  rw [hhas.names]
  exact Sources.nodup_onceFiles (hgrowing.extSchema x (List.mem_of_getLast? hlast))

theorem migrations_are_noted_once_twoVersions :
    ∃ (trace : List (Event × Database (List String))) (d : Database (List String)),
      Run (Step logTexts) ⟨none, [], []⟩ trace d ∧
        d.rows.map (·.name) = ["001-create-ext-schema.sql", "001-tables.sql", "002-views.sql"] ∧
        d.rows = recorded [firstVersion, secondVersion] := by
  have hfirst : Step logTexts ⟨none, [], []⟩ (.upgraded 10 firstVersion) _ := .upgraded rfl rfl
  have hrun := (Run.nil.snoc hfirst).snoc
    (show Step logTexts _ (.upgraded 10 secondVersion) _ from .upgraded rfl rfl)
  obtain ⟨hnames, -, hrows, -⟩ := migrations_are_noted_once rfl hrun growingOnly_twoVersions rfl
  exact ⟨_, _, hrun, hnames, hrows⟩

/-- Then a script does this: for anybody but who did the upgrades before it nothing; else it
executes the files that no version before it had, in their order, and the idempotent ones after
them, notes the former, and warns about those that were noted with another text. -/
theorem scripts_execute_what_is_new (hinit : d₀.psCatalog = none)
    (h : Run (Step execute) d₀ trace d) (hgrowing : GrowingOnly (upgrades trace)) {src : Sources}
    {script : List Statement} (hscript : src.script = some script)
    (hnext : Upgraded.MayFollow (upgrades trace) src) (currentUser : Nat) :
    (∀ x, (upgrades trace).getLast? = some x → x.1 ≠ currentUser →
      runScript execute currentUser script d = .error notSchemaOwner) ∧
    ((∀ x, (upgrades trace).getLast? = some x → x.1 = currentUser) →
      ∃ (t' : Table Migration Migration.constraints) (said : List Message),
        t'.rows = noted d.rows src ∧
        (said.filter fun m => m.level = .warning) = warnings d.rows src src.onceFiles ∧
        runScript execute currentUser script d =
          (executeAll execute (executed d.rows src) d.objects).map fun objects' =>
            .of currentUser t' objects' (d.messages ++ said)) := by
  have hupgraded := upgraded_of_run hinit h hgrowing
  constructor
  · intro x hx hne
    exact runScript_other hscript (hupgraded.last x hx).1.owned hne
  · intro howner
    exact runScript_owned hscript (hupgraded.owned howner) (hupgraded.knows hscript hnext)

theorem scripts_execute_what_is_new_twoVersions :
    ∃ (trace : List (Event × Database (List String))) (d : Database (List String))
      (script : List Statement) (t' : Table Migration Migration.constraints)
      (said : List Message),
      Run (Step logTexts) ⟨none, [], []⟩ trace d ∧ secondVersion.script = some script ∧
        t'.rows = noted d.rows secondVersion ∧
        runScript logTexts 10 script d = (executeAll logTexts
          ["SELECT 1;", "", "CREATE VIEW b AS SELECT 1;", "SELECT 3;", "SELECT 4;"] d.objects).map
            fun objects' => .of 10 t' objects' (d.messages ++ said) := by
  have hfirst : Step logTexts ⟨none, [], []⟩ (.upgraded 10 firstVersion) _ := .upgraded rfl rfl
  have hrun := Run.nil.snoc hfirst
  obtain ⟨hgrowing, hnext⟩ :=
    @GrowingOnly.snoc [(10, firstVersion)] (10, secondVersion) growingOnly_twoVersions
  have hscript : secondVersion.script = some _ := rfl
  obtain ⟨t', said, hrows, -, heffect⟩ :=
    (scripts_execute_what_is_new rfl hrun hgrowing hscript hnext 10).2 (by simp [upgrades])
  exact ⟨_, _, _, t', said, hrun, hscript, hrows, heffect⟩

end

end Promscale.Build
