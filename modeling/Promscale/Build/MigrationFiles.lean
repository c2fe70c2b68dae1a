import Mathlib.Data.List.Sort
import Mathlib.Data.String.Basic
import Promscale.Lib.Pieces

/-!
# The files of an upgrade script

`build.rs` puts the files of `migration/incremental` and `migration/idempotent` into one script, in
the order of their names. It panics unless the numbers that the names begin with are in order.
-/
namespace Promscale.Build

open Promscale.Lib

inductive SqlType where
  | incremental | idempotent
  deriving DecidableEq, Repr

structure File where
  name : String
  contents : String
  deriving DecidableEq, Repr

/-- A directory has no two files of one name. -/
structure Directory where
  files : List File
  distinct : files.Pairwise fun a b => a.name ≠ b.name

/-- A file in the template of its kind, which the database takes apart again. -/
inductive Block where
  | incremental (filename version body : String)
  | idempotent (filename body : String)
  deriving DecidableEq, Repr

def extensionVersionPlaceholder : String := "\x7b\x7bextension_version\x7d\x7d"

/-- `str::replace` -/
def replace (text old new : String) : String :=
  .ofList (new.toList.intercalate (split old.toList text.toList))

/-- `str::parse::<i32>`, for what has no minus sign. -/
def parseI32 (text : List Char) : Option Nat :=
  let digits := if text.head? = some '+' then text.tail else text
  if digits = [] ∨ ¬ digits.all Char.isDigit then none
  else
    let n := Nat.ofDigitChars 10 digits 0
    if n < 2147483648 then some n else none

/-- The number before the first dash. Without a dash or a number it panics. -/
def numericPrefix (fileName : String) : Option Nat :=
  if '-' ∈ fileName.toList then parseI32 (fileName.toList.takeWhile (· ≠ '-')) else none

def wrap (version : String) (sqlType : SqlType) (path : File) : Block :=
  let body := replace path.contents extensionVersionPlaceholder version
  match sqlType with
  | .incremental => .incremental path.name version body
  | .idempotent => .idempotent path.name body

/-- The loop over the sorted files. 999 is for the script that comes last among the idempotent
ones. -/
def renderFrom (version : String) (sqlType : SqlType) (prev : Nat) :
    List File → Option (List Block)
  | [] => some []
  | path :: paths => do
    let curr ← numericPrefix path.name
    guard (sqlType = .idempotent ∧ curr = 999 ∨ curr = prev + 1)
    guard ¬ (sqlType = .idempotent ∧ curr = 1000)
    let rest ← renderFrom version sqlType curr paths
    some (wrap version sqlType path :: rest)

/-- The files of a directory in the order of their names, which is that of their octets. -/
def Directory.sorted (dir : Directory) : List File :=
  dir.files.insertionSort fun a b => a.name ≤ b.name

theorem Directory.mem_sorted {dir : Directory} {f : File} : f ∈ dir.sorted ↔ f ∈ dir.files :=
  (List.perm_insertionSort _ _).mem_iff

def renderFile (version : String) (dir : Directory) (sqlType : SqlType) : Option (List Block) :=
  renderFrom version sqlType 0 dir.sorted

/-! ## Which directories are accepted -/

/-- The numbers from one on, and after them any number of 999s among idempotent files. -/
def InOrder (numbers : List Nat) : SqlType → Prop
  | .incremental => numbers = List.range' 1 numbers.length
  | .idempotent => ∃ k m, k ≤ 998 ∧ numbers = List.range' 1 k ++ List.replicate m 999

/-- The numbers that the loop accepts after one. -/
def Continues (prev : Nat) (numbers : List Nat) : SqlType → Prop
  | .incremental => numbers = List.range' (prev + 1) numbers.length
  | .idempotent => ∃ k m, (k = 0 ∨ prev + k ≤ 998) ∧
    numbers = List.range' (prev + 1) k ++ List.replicate m 999

theorem continues_zero_iff {numbers : List Nat} {sqlType : SqlType} :
    Continues 0 numbers sqlType ↔ InOrder numbers sqlType := by
  cases sqlType with
  | incremental => rfl
  | idempotent =>
    refine exists_congr fun k => exists_congr fun m => and_congr_left fun _ => ?_
    omega

theorem continues_incremental_cons {prev curr : Nat} {numbers : List Nat} :
    Continues prev (curr :: numbers) .incremental ↔
      curr = prev + 1 ∧ Continues curr numbers .incremental := by
  simp only [Continues, List.length_cons, List.range'_succ, List.cons.injEq]
  refine and_congr_right ?_
  rintro rfl
  rfl

theorem continues_idempotent_cons {prev curr : Nat} (hprev : prev ≤ 999) {numbers : List Nat} :
    Continues prev (curr :: numbers) .idempotent ↔
      (curr = 999 ∨ curr = prev + 1) ∧ curr ≠ 1000 ∧ Continues curr numbers .idempotent := by
  constructor
  · rintro ⟨k, m, hk, hnumbers⟩
    cases k with
    | zero =>
      cases m with
      | zero => cases hnumbers
      | succ m =>
        obtain ⟨rfl, rfl⟩ := List.cons.inj hnumbers
        exact ⟨.inl rfl, by decide, 0, m, .inl rfl, rfl⟩
    | succ k =>
      obtain ⟨rfl, rfl⟩ := List.cons.inj hnumbers
      exact ⟨.inr rfl, by omega, k, m, by omega, rfl⟩
  · rintro ⟨hcurr, hne, k, m, hk, rfl⟩
    by_cases hlast : curr = 999
    · have hzero : k = 0 := by omega
      subst hlast hzero
      exact ⟨0, m + 1, .inl rfl, rfl⟩
    · have hnext : curr = prev + 1 := by omega
      subst hnext
      exact ⟨k + 1, m, by omega, rfl⟩

/-- No number after which the loop goes on is greater. -/
theorem le_of_guards {sqlType : SqlType} {prev curr : Nat}
    (hprev : sqlType = .idempotent → prev ≤ 999)
    (hcurr : sqlType = .idempotent ∧ curr = 999 ∨ curr = prev + 1)
    (hne : ¬ (sqlType = .idempotent ∧ curr = 1000)) : sqlType = .idempotent → curr ≤ 999 := by
  intro hidempotent
  have := hprev hidempotent
  simp only [hidempotent, true_and] at hcurr hne
  omega

theorem continues_cons {sqlType : SqlType} {prev curr : Nat}
    (hprev : sqlType = .idempotent → prev ≤ 999) {numbers : List Nat} :
    Continues prev (curr :: numbers) sqlType ↔
      (sqlType = .idempotent ∧ curr = 999 ∨ curr = prev + 1) ∧
        ¬ (sqlType = .idempotent ∧ curr = 1000) ∧ Continues curr numbers sqlType := by
  cases sqlType with
  | incremental => simp [continues_incremental_cons]
  | idempotent => simp [continues_idempotent_cons (hprev rfl)]

theorem renderFrom_eq_some_iff {version : String} {sqlType : SqlType} {prev : Nat}
    (hprev : sqlType = .idempotent → prev ≤ 999) {paths : List File} {blocks : List Block} :
    renderFrom version sqlType prev paths = some blocks ↔
      (∃ numbers, paths.map (fun path => numericPrefix path.name) = numbers.map some ∧
        Continues prev numbers sqlType) ∧ blocks = paths.map (wrap version sqlType) := by
  induction paths generalizing prev blocks with
  | nil =>
    have hnone : Continues prev [] sqlType := by
      cases sqlType with
      | incremental => rfl
      | idempotent => exact ⟨0, 0, .inl rfl, rfl⟩
    constructor
    · intro h
      exact ⟨⟨[], rfl, hnone⟩, (Option.some.inj h).symm⟩
    · rintro ⟨-, rfl⟩
      rfl
  | cons path paths ih =>
    simp only [renderFrom, List.map_cons, Option.bind_eq_bind, Option.bind_eq_some_iff]
    constructor
    · rintro ⟨curr, hcurr, _, hguard, _, hguard', rest, hrest, hblocks⟩
      have hstep := (Option.guard_eq_some' _).mp hguard
      have hne := (Option.guard_eq_some' _).mp hguard'
      obtain ⟨⟨numbers, hnumbers, hcontinues⟩, rfl⟩ :=
        (ih (le_of_guards hprev hstep hne)).mp hrest
      refine ⟨⟨curr :: numbers, by rw [hcurr, hnumbers, List.map_cons], ?_⟩,
        (Option.some.inj hblocks).symm⟩
      exact (continues_cons hprev).mpr ⟨hstep, hne, hcontinues⟩
    · rintro ⟨⟨numbers, hnumbers, hcontinues⟩, rfl⟩
      cases numbers with
      | nil => cases hnumbers
      | cons curr numbers =>
        obtain ⟨hcurr, hnumbers⟩ := List.cons.inj hnumbers
        obtain ⟨hstep, hne, hcontinues⟩ := (continues_cons hprev).mp hcontinues
        exact ⟨curr, hcurr, (), (Option.guard_eq_some' _).mpr hstep, (), (Option.guard_eq_some' _).mpr hne, _,
          (ih (le_of_guards hprev hstep hne)).mpr ⟨⟨numbers, hnumbers, hcontinues⟩, rfl⟩, rfl⟩

theorem renderFile_eq_some_iff {version : String} {dir : Directory} {sqlType : SqlType}
    {blocks : List Block} :
    renderFile version dir sqlType = some blocks ↔
      (∃ numbers, dir.sorted.map (fun path => numericPrefix path.name) = numbers.map some ∧
        InOrder numbers sqlType) ∧ blocks = dir.sorted.map (wrap version sqlType) := by
  simp only [← continues_zero_iff]
  exact renderFrom_eq_some_iff fun _ => Nat.zero_le _

/-! ## Directories that only grow -/

/-- The files whose names begin with one to how many there are, in that order. -/
theorem numericPrefix_getElem {version : String} {dir : Directory} {blocks : List Block}
    (h : renderFile version dir .incremental = some blocks) {i : Nat} (hi : i < dir.sorted.length) :
    numericPrefix dir.sorted[i].name = some (i + 1) := by
  obtain ⟨⟨numbers, hnumbers, horder⟩, -⟩ := renderFile_eq_some_iff.mp h
  have hlength : numbers.length = dir.sorted.length := by
    simpa using (congrArg List.length hnumbers).symm
  have hat := congrArg (·[i]?) hnumbers
  rw [InOrder] at horder
  rw [horder] at hat
  simp [hlength, hi] at hat
  rw [hat, Nat.add_comm]

/-- Where both are accepted, a directory with the files of another one and more has them first. -/
theorem sorted_isPrefix {version version' : String} {dir dir' : Directory}
    {blocks blocks' : List Block} (h : renderFile version dir .incremental = some blocks)
    (h' : renderFile version' dir' .incremental = some blocks')
    (hgrows : ∀ f ∈ dir.files, ∃ f' ∈ dir'.files, f'.name = f.name) :
    dir.sorted.map (·.name) <+: dir'.sorted.map (·.name) := by
  have hat : ∀ i (hi : i < dir.sorted.length), ∃ hi' : i < dir'.sorted.length,
      dir'.sorted[i].name = dir.sorted[i].name := by
    intro i hi
    obtain ⟨f', hf', hname⟩ := hgrows _ (Directory.mem_sorted.mp (List.getElem_mem hi))
    obtain ⟨j, hj, rfl⟩ := List.mem_iff_getElem.mp (Directory.mem_sorted.mpr hf')
    -- The number tells where a file comes.
    have hnumber := numericPrefix_getElem h' hj
    rw [hname, numericPrefix_getElem h hi] at hnumber
    cases hnumber
    exact ⟨hj, hname⟩
  rw [List.prefix_iff_getElem?]
  intro i hi
  obtain ⟨hi', hname⟩ := hat i (by simpa using hi)
  simp [hi', hname]

end Promscale.Build
