import Promscale.Jobs.MaintenanceJobs

/-!
# Configuring the maintenance jobs, once and twice

A call leaves as many jobs for its signal and type as it was asked for, with the config it was
asked for, and jobs of no other kind change. It does not leave them with the interval it was asked
for: each new job has some more, so the next call takes it for a job with another interval,
deletes it and adds a new one in its place.
-/
namespace Promscale.Jobs

open Promscale.Lib
open Promscale.Jsonb

variable {signal : SignalType} {jobType : JobType} {newScheduleInterval : Interval} {env : Env}
variable {numberJobs : Int} {newConfig : Option (Value Numeric)} {t t' t'' : JobTable}

/-! ## One call -/

/-- Jobs of other procedures, and jobs with both keys that are not for the signal and the type. -/
def IsOther (signal : SignalType) (jobType : JobType) (j : Job) : Prop :=
  isMaintenanceJob j = false ∨ bothKeys j = true ∧ isFor signal jobType j = false

/-- The table as a call is to leave it. -/
structure Configured (signal : SignalType) (jobType : JobType) (numberJobs : Int)
    (final : Value Numeric) (t t' : JobTable) : Prop where
  count : t'.rows.countP (isFor signal jobType) = max numberJobs 0
  config : ∀ j ∈ t'.rows, isFor signal jobType j = true →
    ∃ config, j.config = some config ∧ final.equals config = true
  keys : ∀ j ∈ t'.rows, isMaintenanceJob j = true → bothKeys j = true
  others : ∀ j, IsOther signal jobType j → (j ∈ t'.rows ↔ j ∈ t.rows)

/-- There are fewer jobs than asked for, those aside that the call deletes. -/
def LacksJobs (signal : SignalType) (jobType : JobType) (newScheduleInterval : Interval)
    (numberJobs : Int) (newConfig : Option (Value Numeric)) (t : JobTable) : Prop :=
  t.rows.countP (isAsRequested signal jobType newScheduleInterval
    (finalConfig signal jobType newConfig)) < numberJobs

/-- Why a call is refused. -/
def Refused (signal : SignalType) (jobType : JobType) (newScheduleInterval : Interval)
    (now numberJobs : Int) (newConfig : Option (Value Numeric)) (t : JobTable) :
    ConfigError → Prop
  | .invalidBoolean input =>
    newConfig.bind (Value.fieldText logVerboseKey) = some input ∧ boolin input = none
  | .integerOutOfRange => IsInt32 numberJobs → 2147483647 < t.rows.length + max (-numberJobs) 0
  | .intervalOutOfRange =>
    LacksJobs signal jobType newScheduleInterval numberJobs newConfig t ∧
      ∃ jitter : Jitter, ¬ IsInt64 (newScheduleInterval.micros + jitter) ∨
        ∃ (share : Share) (i : Interval), plusJitter newScheduleInterval jitter = .ok i ∧
          i.mul share = none
  | .timestampOutOfRange =>
    LacksJobs signal jobType newScheduleInterval numberJobs newConfig t ∧
      ∃ (jitter : Jitter) (share : Share) (i shift : Interval),
        plusJitter newScheduleInterval jitter = .ok i ∧ i.mul share = some shift ∧
          timestamptzPlInterval now shift = none

theorem IsOther.not_isFor {j : Job} (h : IsOther signal jobType j) :
    isFor signal jobType j = false := by
  rcases h with hjob | ⟨-, hfor⟩
  · simp [isFor, hjob]
  · exact hfor

section Once
variable {final : Value Numeric}

theorem mem_cleaned_of_isOther {j : Job} (h : IsOther signal jobType j) :
    j ∈ (cleaned signal jobType newScheduleInterval env final t).rows ↔ j ∈ t.rows := by
  rw [mem_cleaned, and_iff_left_iff_imp]
  intro _
  have hfor := h.not_isFor
  rcases h with hjob | ⟨hkeys, -⟩
  · simp [hjob, hfor]
  · simp [hkeys, hfor]

theorem mem_deleteLimit {p : Job → Bool} {limit : Nat} {j : Job}
    (h : j ∈ (deleteLimit env p limit t).rows) : j ∈ t.rows := by
  rw [deleteLimit, Numbered.rows_deleteAll] at h
  exact (List.mem_filter.mp h).1

theorem mem_deleteLimit_of_not {p : Job → Bool} (limit : Nat) {j : Job} (hp : p j = false) :
    j ∈ (deleteLimit env p limit t).rows ↔ j ∈ t.rows := by
  have hselected : ∀ s ∈ (env.scan (t.rows.filter p)).take limit, s ∈ t.rows ∧ p s = true :=
    fun s hs => List.mem_filter.mp ((env.scan_perm _).subset (List.mem_of_mem_take hs))
  rw [deleteLimit, Numbered.mem_deleteAll fun s hs => (hselected s hs).1, and_iff_left_iff_imp]
  intro _ hj
  have hpj := (hselected j hj).2
  rw [hp] at hpj
  cases hpj

theorem configured_of_added {new : List Job}
    (hobject : ∀ v ∈ newConfig, v.IsObject)
    (hextends : Numbered.Extends (cleaned signal jobType newScheduleInterval env
      (finalConfig signal jobType newConfig) t) t' new)
    (hlength : new.length = numberJobs - (cleaned signal jobType newScheduleInterval env
      (finalConfig signal jobType newConfig) t).rows.countP (isFor signal jobType))
    (hnew : ∀ j ∈ new, IsNew newScheduleInterval (finalConfig signal jobType newConfig) j) :
    Configured signal jobType numberJobs (finalConfig signal jobType newConfig) t t' := by
  have hfor : ∀ j ∈ new, isFor signal jobType j = true :=
    fun j hj => isFor_of_final hobject (hnew j hj).maintenance (hnew j hj).config
  have hrows := hextends.rows_eq
  refine ⟨?_, ?_, ?_, ?_⟩
  · rw [hrows, List.countP_append, List.countP_eq_length.mpr hfor]
    omega
  · intro j hj hjfor
    rw [hrows] at hj
    rcases List.mem_append.mp hj with hj | hj
    · exact equals_of_not_differs ((mem_cleaned.mp hj).2.2 hjfor)
    · exact ⟨_, (hnew j hj).config, Value.equals_self _⟩
  · intro j hj hjob
    rw [hrows] at hj
    rcases List.mem_append.mp hj with hj | hj
    · exact (mem_cleaned.mp hj).2.1 hjob
    · exact bothKeys_of_isFor (hfor j hj)
  · intro j hother
    rw [hrows, List.mem_append, mem_cleaned_of_isOther hother, or_iff_left_iff_imp]
    intro hj
    have hjfor := hfor j hj
    rw [hother.not_isFor] at hjfor
    cases hjfor

theorem configured_of_deleted (hle : numberJobs ≤
      (cleaned signal jobType newScheduleInterval env final t).rows.countP (isFor signal jobType)) :
    Configured signal jobType numberJobs final t
      (deleteLimit env (isFor signal jobType) ((cleaned signal jobType newScheduleInterval env
        final t).rows.countP (isFor signal jobType) - numberJobs).toNat
        (cleaned signal jobType newScheduleInterval env final t)) := by
  refine ⟨?_, ?_, ?_, ?_⟩
  · rw [deleteLimit, Numbered.countP_deleteAll_take (env.scan_perm _)]
    omega
  · exact fun j hj hfor => equals_of_not_differs ((mem_cleaned.mp (mem_deleteLimit hj)).2.2 hfor)
  · exact fun j hj => (mem_cleaned.mp (mem_deleteLimit hj)).2.1
  · intro j hother
    rw [mem_deleteLimit_of_not _ hother.not_isFor, mem_cleaned_of_isOther hother]

end Once

theorem int4_eq_error {n : Int} {e : ConfigError} (h : int4 n = .error e) :
    e = .integerOutOfRange ∧ ¬ IsInt32 n :=
  of_check_error h

theorem boolean_eq_error {text : Option PgText} {e : ConfigError}
    (h : boolean (text.getD (.literal "false")) = .error e) :
    ∃ input, text = some input ∧ boolin input = none ∧ e = .invalidBoolean input := by
  have hfalse : boolin (.literal "false") = some false := by decide
  unfold boolean at h
  split at h
  · cases h
  · rename_i hnone
    cases h
    cases text with
    | none =>
      rw [Option.getD_none, hfalse] at hnone
      cases hnone
    | some input => exact ⟨input, rfl, hnone, rfl⟩

theorem plusJitter_eq_error {i : Interval} {jitter : Jitter} {e : ConfigError}
    (h : plusJitter i jitter = .error e) :
    e = .intervalOutOfRange ∧ ¬ IsInt64 (i.micros + jitter) :=
  of_check_error h

/-- The start of a job is out of range. -/
theorem addJob_refuses {now : Int} {share : Share} {jitter : Jitter} {i : Interval}
    {final : Value Numeric} {u : JobTable} {e : ConfigError}
    (hlacks : LacksJobs signal jobType newScheduleInterval numberJobs newConfig t)
    (hplus : plusJitter newScheduleInterval jitter = .ok i)
    (h : addJob now share i final u = .error e) :
    Refused signal jobType newScheduleInterval now numberJobs newConfig t e := by
  rcases bind_eq_error h with h | ⟨start, -, h⟩
  · unfold initialStart at h
    split at h
    · rename_i hmul
      cases h
      exact ⟨hlacks, jitter, .inr ⟨share, i, hplus, hmul⟩⟩
    · rename_i shift hmul
      split at h
      · rename_i hsum
        cases h
        exact ⟨hlacks, jitter, share, i, shift, hplus, hmul, hsum⟩
      · cases h
  · cases h

theorem configMaintenanceJobs_refuses {e : ConfigError} (h : configMaintenanceJobs signal jobType
    newScheduleInterval env numberJobs newConfig t = .error e) :
    Refused signal jobType newScheduleInterval env.now numberJobs newConfig t e := by
  rcases bind_eq_error h with h | ⟨_, -, h⟩
  · obtain ⟨input, htext, hnone, rfl⟩ := boolean_eq_error h
    exact ⟨htext, hnone⟩
  have hlength : (cleaned signal jobType newScheduleInterval env
      (finalConfig signal jobType newConfig) t).rows.countP (isFor signal jobType) ≤
        t.rows.length := by
    rw [countP_cleaned]
    exact List.countP_le_length
  rcases bind_eq_error h with h | ⟨cnt, hcnt, h⟩
  · obtain ⟨rfl, hrange⟩ := int4_eq_error h
    intro _
    unfold IsInt32 at hrange
    omega
  rw [int4_eq_ok hcnt] at h
  rcases bind_eq_error h with h | ⟨_, -, h⟩
  · unfold addMissing at h
    split at h
    · rename_i hlt
      rcases bind_eq_error h with h | ⟨_, -, h⟩
      · obtain ⟨rfl, hrange⟩ := int4_eq_error h
        intro hnumber
        unfold IsInt32 at hrange hnumber
        omega
      · rw [countP_cleaned] at hlt
        obtain ⟨k, -, _, hstep⟩ := foldlM_eq_error h
        rcases bind_eq_error hstep with hplus | ⟨_, hplus, hadd⟩
        · obtain ⟨rfl, hrange⟩ := plusJitter_eq_error hplus
          exact ⟨hlt, env.jitter k, .inl hrange⟩
        · exact addJob_refuses hlt hplus hadd
    · cases h
  rcases bind_eq_error h with h | ⟨_, -, h⟩
  · unfold deleteExcess at h
    split at h
    · rcases bind_eq_error h with h | ⟨_, -, h⟩
      · obtain ⟨rfl, hrange⟩ := int4_eq_error h
        intro hnumber
        unfold IsInt32 at hrange hnumber
        omega
      · cases h
    · cases h
  · cases h

/-- A call with an object or NULL for a config leaves the jobs as it was asked to, unless it is
refused for a text that is no boolean or for a number out of range. -/
theorem configMaintenanceJobs_configures (signal : SignalType) (jobType : JobType)
    (newScheduleInterval : Interval) (env : Env) (numberJobs : Int)
    (newConfig : Option (Value Numeric)) (t : JobTable)
    (hconfig : numberJobs ≤ 0 ∨ ∀ v ∈ newConfig, v.IsObject) :
    match configMaintenanceJobs signal jobType newScheduleInterval env numberJobs newConfig t with
    | .ok (b, t') =>
      b = true ∧
        Configured signal jobType numberJobs (finalConfig signal jobType newConfig) t t'
    | .error e => Refused signal jobType newScheduleInterval env.now numberJobs newConfig t e := by
  cases h : configMaintenanceJobs signal jobType newScheduleInterval env numberJobs newConfig t with
  | error e => exact configMaintenanceJobs_refuses h
  | ok result =>
    obtain ⟨b, t'⟩ := result
    obtain ⟨hb, hresized⟩ := configMaintenanceJobs_returns h
    refine ⟨hb, ?_⟩
    cases hresized with
    | added new hlt hextends hlength hnew =>
      have hobject := hconfig.resolve_left (by omega)
      exact configured_of_added hobject hextends hlength hnew
    | deleted hle ht =>
      rw [ht]
      exact configured_of_deleted hle

/-- Rows read in the order of the table, at the beginning of 2023, with 45 seconds for every jitter
and jobs that start after three quarters of their interval. -/
def inOrder : Env where
  scan jobs := jobs
  scan_perm jobs := .refl jobs
  now := 725846400000000
  jitter _ := ⟨45000000, by decide⟩
  share _ := ⟨⟨false, 0x3fe8000000000000, by decide⟩, by decide +kernel⟩

/-- A call that returns, by what is seen of the table it leaves. -/
theorem exists_returned {β : Type} {x : Except ConfigError (Bool × JobTable)} (view : JobTable → β)
    {v : β} (h : x.toOption.map (fun result => (result.1, view result.2)) = some (true, v)) :
    ∃ t', x = .ok (true, t') ∧ view t' = v := by
  cases x with
  | error e => cases h
  | ok result =>
    obtain ⟨b, t'⟩ := result
    cases h
    exact ⟨t', rfl, rfl⟩

def tenMinutes : Interval := ⟨0, 0, 600000000⟩

/-- A job with an old config and a job of another procedure. -/
def oldJobs : JobTable where
  rows := [⟨1, "_prom_catalog", "execute_maintenance_job", ⟨0, 0, 1800000000⟩, none⟩,
    ⟨2, "_ps_trace", "execute_tracing_compression_job", ⟨0, 0, 3600000000⟩, none⟩]
  seq := 2
  nodup := by decide
  le_seq := by simp

theorem configMaintenanceJobs_configures_oldJobs :
    ∃ t', configMaintenanceJobs .metrics .retention tenMinutes inOrder 1 none oldJobs =
        .ok (true, t') ∧ t'.rows.map (·.jobId) = [2, 3] ∧
      Configured .metrics .retention 1 (finalConfig .metrics .retention none) oldJobs t' := by
  have hspec := configMaintenanceJobs_configures .metrics .retention tenMinutes inOrder 1 none
    oldJobs (.inr (by simp))
  obtain ⟨t', hreturns, hids⟩ := exists_returned
    (x := configMaintenanceJobs .metrics .retention tenMinutes inOrder 1 none oldJobs)
    (fun t' => t'.rows.map (·.jobId)) (v := [2, 3]) (by decide +kernel)
  rw [hreturns] at hspec
  exact ⟨t', hreturns, hids, hspec.2⟩

/-- A config that is an array becomes an array with the signal and the type in it, which is the
config of no job for them. -/
theorem configMaintenanceJobs_array_fails :
    ∃ t', configMaintenanceJobs .metrics .retention tenMinutes inOrder 1 (some (.array [])) oldJobs =
        .ok (true, t') ∧ t'.rows.countP (isFor .metrics .retention) = 0 ∧
      ¬ (∀ j ∈ t'.rows, isMaintenanceJob j = true → bothKeys j = true) ∧
      ¬ Configured .metrics .retention 1 (finalConfig .metrics .retention (some (.array []))) oldJobs
        t' := by
  obtain ⟨t', hreturns, hview⟩ := exists_returned
    (x := configMaintenanceJobs .metrics .retention tenMinutes inOrder 1 (some (.array [])) oldJobs)
    (fun t' => (t'.rows.countP (isFor .metrics .retention),
      decide (∀ j ∈ t'.rows, isMaintenanceJob j = true → bothKeys j = true)))
    (v := (0, false)) (by decide +kernel)
  obtain ⟨hcount, hkeys⟩ := Prod.mk.inj hview
  have hkeys := of_decide_eq_false hkeys
  exact ⟨t', hreturns, hcount, hkeys, fun h => hkeys h.keys⟩

/-! ## Two calls -/

/-- The same jobs by their ids and schedules. -/
def SameSchedules (t t' : JobTable) : Prop :=
  ∀ i schedule, (∃ j ∈ t'.rows, j.jobId = i ∧ j.scheduleInterval = schedule) ↔
    ∃ j ∈ t.rows, j.jobId = i ∧ j.scheduleInterval = schedule

theorem SameSchedules.refl (t : JobTable) : SameSchedules t t := fun _ _ => Iff.rfl

section Twice
variable {final : Value Numeric}

/-- A new job has another interval than the one asked for. -/
theorem not_isAsRequested_of_isNew {j : Job} (h : IsNew newScheduleInterval final j) :
    isAsRequested signal jobType newScheduleInterval final j = false := by
  obtain ⟨⟨jitter, hleast, _⟩, hvalue⟩ := h.interval
  have hne : (j.scheduleInterval.value != newScheduleInterval.value) = true := by
    rw [bne_iff_ne, hvalue]
    change newScheduleInterval.value + jitter ≠ newScheduleInterval.value
    omega
  simp [isAsRequested, differs, hne]

@[simp] theorem seq_cleaned :
    (cleaned signal jobType newScheduleInterval env final t).seq = t.seq := by
  simp [cleaned, deleteWhere]

/-- Nothing is to be deleted from a table in which each job has both keys and each job that is
counted is as it should be. -/
theorem cleaned_eq_self (hkeys : ∀ j ∈ t.rows, isMaintenanceJob j = true → bothKeys j = true)
    (hsame : ∀ j ∈ t.rows, isFor signal jobType j = true →
      differs newScheduleInterval final j = false) :
    cleaned signal jobType newScheduleInterval env final t = t := by
  refine Numbered.ext ?_ seq_cleaned
  rw [cleaned, rows_deleteWhere, rows_deleteWhere, List.filter_filter, List.filter_eq_self]
  intro j hj
  have hjkeys := hkeys j hj
  have hjsame := hsame j hj
  cases hjob : isMaintenanceJob j <;> cases hfor : isFor signal jobType j <;>
    simp_all

/-- Where more jobs are asked for than there are as requested, so are there after the call. -/
theorem countP_of_added {new : List Job} {u : JobTable} (hextends : Numbered.Extends u t' new)
    (hnew : ∀ j ∈ new, IsNew newScheduleInterval final j) :
    t'.rows.countP (isAsRequested signal jobType newScheduleInterval final) ≤
      u.rows.countP (isFor signal jobType) := by
  have hnone : new.countP (isAsRequested signal jobType newScheduleInterval final) = 0 := by
    rw [List.countP_eq_zero]
    intro j hj
    rw [not_isAsRequested_of_isNew (hnew j hj)]
    exact Bool.false_ne_true
  have himp : ∀ j ∈ u.rows, isAsRequested signal jobType newScheduleInterval final j = true →
      isFor signal jobType j = true := fun j _ h => (Bool.and_eq_true_iff.mp h).1
  rw [hextends.rows_eq, List.countP_append, hnone, Nat.add_zero]
  exact List.countP_mono_left himp

/-- A limit that takes all jobs there are, or none. -/
theorem deleteLimit_eq_self {p : Job → Bool} {limit : Nat}
    (h : limit = 0 ∨ t.rows.countP p = 0) : deleteLimit env p limit t = t := by
  have hlength : ((env.scan (t.rows.filter p)).take limit).length = 0 := by
    rw [List.length_take, (env.scan_perm _).length_eq, ← List.countP_eq_length_filter]
    omega
  rw [deleteLimit, List.eq_nil_of_length_eq_zero hlength]
  rfl

end Twice

/-- A second call keeps the ids and the schedules exactly when the first one had no job to add. -/
theorem configMaintenanceJobs_twice_iff {env' : Env} {b b' : Bool}
    (hfirst : configMaintenanceJobs signal jobType newScheduleInterval env numberJobs newConfig t =
      .ok (b, t'))
    (hsecond : configMaintenanceJobs signal jobType newScheduleInterval env' numberJobs newConfig
      t' = .ok (b', t'')) :
    SameSchedules t' t'' ↔ numberJobs ≤ t.rows.countP (isAsRequested signal jobType
      newScheduleInterval (finalConfig signal jobType newConfig)) := by
  obtain ⟨-, hfirst⟩ := configMaintenanceJobs_returns hfirst
  obtain ⟨-, hsecond⟩ := configMaintenanceJobs_returns hsecond
  constructor
  · intro hsame
    by_contra hmissing
    cases hfirst with
    | deleted hle _ =>
      rw [countP_cleaned] at hle
      exact hmissing hle
    | added new hlt hextends _ hnew =>
      have hcount := @countP_of_added signal jobType _ _ _ _ _ hextends hnew
      cases hsecond with
      | deleted hle _ =>
        rw [countP_cleaned] at hle
        omega
      | added new' hlt' hextends' hlength' _ =>
        -- one of the new jobs of the second call
        obtain ⟨j, hj⟩ := List.exists_mem_of_length_pos (l := new') (by omega)
        have hlast : j ∈ t''.rows := by
          rw [hextends'.rows_eq]
          exact List.mem_append_right _ hj
        obtain ⟨j', hj', hid, -⟩ := (hsame j.jobId j.scheduleInterval).mp ⟨j, hlast, rfl, rfl⟩
        have hle := t'.le_seq j' hj'
        have hfresh := hextends'.seq_lt j hj
        rw [seq_cleaned] at hfresh
        omega
  · intro hle
    cases hfirst with
    | added _ hlt _ _ _ =>
      rw [countP_cleaned] at hlt
      omega
    | deleted hle' ht' =>
      have hmem : ∀ j ∈ t'.rows, j ∈ (cleaned signal jobType newScheduleInterval env
          (finalConfig signal jobType newConfig) t).rows := by
        rw [ht']
        exact fun j => mem_deleteLimit
      have hcount := (configured_of_deleted hle').count
      rw [← ht'] at hcount
      have hclean : cleaned signal jobType newScheduleInterval env'
          (finalConfig signal jobType newConfig) t' = t' :=
        cleaned_eq_self (fun j hj => (mem_cleaned.mp (hmem j hj)).2.1)
          fun j hj => (mem_cleaned.mp (hmem j hj)).2.2
      rw [hclean] at hsecond
      cases hsecond with
      | added _ hlt _ _ _ => omega
      | deleted _ ht'' =>
        rw [ht'', deleteLimit_eq_self (by omega)]
        exact .refl t'

/-- A job with the interval and the config that are asked for. -/
def settledJobs : JobTable where
  rows := [⟨1, "_prom_catalog", "execute_maintenance_job", tenMinutes,
    some (finalConfig .metrics .retention none)⟩]
  seq := 1
  nodup := by decide
  le_seq := by simp

theorem configMaintenanceJobs_twice_settledJobs :
    ∃ t' t'', configMaintenanceJobs .metrics .retention tenMinutes inOrder 1 none settledJobs =
        .ok (true, t') ∧
      configMaintenanceJobs .metrics .retention tenMinutes inOrder 1 none t' = .ok (true, t'') ∧
      t'.rows.map (·.jobId) = [1] ∧ SameSchedules t' t'' := by
  obtain ⟨t', t'', hfirst, hsecond, hids⟩ : ∃ t' t'',
      configMaintenanceJobs .metrics .retention tenMinutes inOrder 1 none settledJobs =
        .ok (true, t') ∧
      configMaintenanceJobs .metrics .retention tenMinutes inOrder 1 none t' = .ok (true, t'') ∧
      t'.rows.map (·.jobId) = [1] := ⟨_, _, rfl, rfl, rfl⟩
  exact ⟨t', t'', hfirst, hsecond, hids,
    (configMaintenanceJobs_twice_iff hfirst hsecond).mpr (by decide +kernel)⟩

def schedules (t : JobTable) : List (Nat × Interval) :=
  t.rows.map fun j => (j.jobId, j.scheduleInterval)

/-- The job that the first call adds is not there after the second one. -/
theorem configMaintenanceJobs_twice_fails :
    ∃ t' t'', configMaintenanceJobs .metrics .retention tenMinutes inOrder 1 none oldJobs =
        .ok (true, t') ∧
      configMaintenanceJobs .metrics .retention tenMinutes inOrder 1 none t' = .ok (true, t'') ∧
      t'.rows.map (fun j => (j.jobId, j.scheduleInterval)) =
        [(2, ⟨0, 0, 3600000000⟩), (3, ⟨0, 0, 645000000⟩)] ∧
      t''.rows.map (fun j => (j.jobId, j.scheduleInterval)) =
        [(2, ⟨0, 0, 3600000000⟩), (4, ⟨0, 0, 645000000⟩)] ∧ ¬ SameSchedules t' t'' := by
  obtain ⟨t', hfirst, hrows⟩ := exists_returned
    (x := configMaintenanceJobs .metrics .retention tenMinutes inOrder 1 none oldJobs) schedules
    (show _ = some (true, [(2, ⟨0, 0, 3600000000⟩), (3, ⟨0, 0, 645000000⟩)]) by decide +kernel)
  have hagain : ((configMaintenanceJobs .metrics .retention tenMinutes inOrder 1 none
      oldJobs).toOption.bind fun result => (configMaintenanceJobs .metrics .retention tenMinutes
        inOrder 1 none result.2).toOption.map fun result => (result.1, schedules result.2)) =
      some (true, [(2, ⟨0, 0, 3600000000⟩), (4, ⟨0, 0, 645000000⟩)]) := by
    decide +kernel
  rw [hfirst] at hagain
  obtain ⟨t'', hsecond, hrows'⟩ := exists_returned schedules hagain
  unfold schedules at hrows hrows'
  refine ⟨t', t'', hfirst, hsecond, hrows, hrows', fun hsame => ?_⟩
  have hmem : (3, (⟨0, 0, 645000000⟩ : Interval)) ∈
      t'.rows.map (fun j => (j.jobId, j.scheduleInterval)) := by
    rw [hrows]
    decide
  obtain ⟨j, hj, hpair⟩ := List.mem_map.mp hmem
  obtain ⟨hid, hschedule⟩ := Prod.mk.inj hpair
  obtain ⟨k, hk, hkid, -⟩ := (hsame 3 ⟨0, 0, 645000000⟩).mpr ⟨j, hj, hid, hschedule⟩
  have hgone : ∀ pair ∈ t''.rows.map (fun j => (j.jobId, j.scheduleInterval)), pair.1 ≠ 3 := by
    rw [hrows']
    decide
  exact hgone _ (List.mem_map_of_mem hk) hkid

end Promscale.Jobs
