import Promscale.Catalog.RetentionJobs

/-!
# The grace period of deletions

The epoch a job has read may be old by the time it uses it. Still the epoch moves by one at a
time and not before its duration is over, and a series is deleted only with a mark that was
made five epochs before the one its job has read, and was there ever since.
-/
namespace Promscale.Catalog

open Promscale.Lib

/-! ## What an event can do -/

/-- What a statement of a job does to the catalog. -/
inductive Statement.Effect (job : Job) (s : Statement) (c c' : Catalog) : Prop
  | keeps (h : Keeps c c')
  | marks (t : SeriesTable) (ids : List Nat) (currentEpoch : Int) (hs : s = .mark currentEpoch)
      (ht : c.dataSeries job.metricSeriesTable = some t)
      (h : c' = c.withSeries job.metricSeriesTable t (markSeries t ids currentEpoch))
  | deletes (t : SeriesTable) (dead : List Nat) (presentEpoch lastUpdated : Int)
      (hs : s = .delete presentEpoch) (hread : job.read = some (presentEpoch, lastUpdated))
      (ht : c.dataSeries job.metricSeriesTable = some t)
      (h : c' = c.withSeries job.metricSeriesTable t (deleteOrResurrect t (presentEpoch - 4) dead))
  | deletesLabels (labelArray : List Nat)
      (h : c' = c.deleteUnusedLabels job.metricSeriesTable labelArray)
  | updatesEpoch (presentEpoch lastUpdated : Int)
      (hread : job.read = some (presentEpoch, lastUpdated))
      (h : c' = c.updateEpoch job.ranAt presentEpoch lastUpdated job.now)

/-- What a statement does to its job. -/
structure Job.Moves (w : World) (s : Statement) (job job' : Job) : Prop where
  ranAt : job'.ranAt = job.ranAt
  now : job'.now = job.now ∨ job'.now = w.clock
  read : job'.read = job.read ∨
    s = .readEpoch w.catalog.currentEpoch w.catalog.lastUpdateTime ∧
      job'.read = some (w.catalog.currentEpoch, w.catalog.lastUpdateTime)

/-- The job moves on and changes the catalog so. -/
def World.Runs (w : World) (id : Nat) (s : Statement) (job : Job) (w' : World) : Prop :=
  ∃ job' c', w' = { w with catalog := c', jobs := assign w.jobs id (some job') } ∧
    job.Moves w s job' ∧ s.Effect job w.catalog c'

theorem World.runs_ran {w : World} {id : Nat} {s : Statement} {job : Job} {pc : JobPc} {c' : Catalog}
    (h : s.Effect job w.catalog c') : w.Runs id s job (w.ran id job pc c') :=
  ⟨_, c', rfl, ⟨rfl, .inl rfl, .inl rfl⟩, h⟩

theorem dropMetricChunkData_keeps (c : Catalog) (schemaName metricName : String) (olderThan : Int)
    (chunkEnd : Int → Int) :
    Ensures (dropMetricChunkData schemaName metricName olderThan chunkEnd) c fun _ c' =>
      Keeps c c' := by
  refine (dropMetricChunkData_effects c schemaName metricName olderThan chunkEnd).mono ?_
  rintro _ _ (rfl | ⟨relation, p, samples, -, rfl⟩)
  · exact .refl _
  · exact { Keeps.refl c with epoch := ⟨rfl, rfl, rfl⟩ }

theorem statement_runs {w w' : World} {id : Nat} {job : Job} {s : Statement}
    (h : w.statement id job s = some w') : w.Runs id s job w' := by
  cases World.statement_executes h with
  | findDropPoint => exact ⟨_, w.catalog, rfl, ⟨rfl, .inl rfl, .inl rfl⟩, .keeps (.refl _)⟩
  | readEpoch => exact ⟨_, w.catalog, rfl, ⟨rfl, .inl rfl, .inr ⟨rfl, rfl⟩⟩, .keeps (.refl _)⟩
  | findUnused => exact World.runs_ran (.keeps (.refl _))
  | mark hpc ht => exact World.runs_ran (.marks _ _ _ rfl ht rfl)
  | dropChunks hpc hrun =>
    exact World.runs_ran (.keeps (dropMetricChunkData_keeps _ _ _ _ _ _ _ hrun))
  | findDead => exact World.runs_ran (.keeps (.refl _))
  | delete hpc hread ht => exact World.runs_ran (.deletes _ _ _ _ rfl hread ht rfl)
  | deleteLabels => exact World.runs_ran (.deletesLabels _ rfl)
  | updateEpoch hpc hread => exact World.runs_ran (.updatesEpoch _ _ hread rfl)
  | commit => exact ⟨_, w.catalog, rfl, ⟨rfl, .inr rfl, .inl rfl⟩, .keeps (.refl _)⟩

/-- Everything an event can do. -/
inductive Event.Effect (w : World) : Event → World → Prop
  | ticked (time : Int) (htime : w.clock ≤ time) : Effect w (.tick time) { w with clock := time }
  | called (e : Event) (id : Nat) (job : Job) (hnew : w.jobs id = none) (hread : job.read = none)
      (hnow : job.now = w.clock) (hranAt : job.ranAt ≤ w.clock) :
      Effect w e { w with jobs := assign w.jobs id (some job) }
  | ran (id : Nat) (s : Statement) (job job' : Job) (c' : Catalog) (hjob : w.jobs id = some job)
      (hmoves : job.Moves w s job') (h : s.Effect job w.catalog c') :
      Effect w (.statement id s)
        { w with catalog := c', jobs := assign w.jobs id (some job') }
  | stepped (op : Op) (hop : op.isDeleteExpiredSeries = false) :
      Effect w (.call op) { w with catalog := step w.catalog op }

theorem next_effect {w w' : World} {e : Event} (h : w.next e = some w') : e.Effect w w' := by
  cases World.next_happens h with
  | tick htime => exact .ticked _ htime
  | dropMetricChunks hnew hranAt => exact .called _ _ _ hnew rfl rfl hranAt
  | deleteExpiredSeries hnew hranAt => exact .called _ _ _ hnew rfl rfl hranAt
  | statement hjob hruns =>
    obtain ⟨job', c', rfl, hmoves, heffect⟩ := statement_runs hruns
    exact .ran _ _ _ job' c' hjob hmoves heffect
  | call hop => exact .stepped _ hop

/-! ## Epochs, marks and rows over one statement -/

section
variable {job : Job} {s : Statement} {c c' : Catalog}

theorem Statement.Effect.wellFormed (h : s.Effect job c c') (hwf : c.WellFormed) :
    c'.WellFormed := by
  cases h with
  | keeps h => exact h.shrinks.wellFormed hwf
  | marks t ids currentEpoch hs ht h =>
    rw [h]
    exact (setDeleteEpoch_shrinks ht _).wellFormed hwf
  | deletes t dead presentEpoch lastUpdated hs hread ht h =>
    rw [h]
    exact (deleteOrResurrect_shrinks ht _ _).wellFormed hwf
  | deletesLabels labelArray h =>
    rw [h]
    exact (deleteUnusedLabels_shrinks c _ labelArray).wellFormed hwf
  | updatesEpoch presentEpoch lastUpdated hread h =>
    rw [h]
    exact (updateEpoch_shrinks c _ _ _ _).wellFormed hwf

/-- The epoch moves, if at all, to the one after what the job has read. -/
theorem Statement.Effect.epoch (h : s.Effect job c c') : SameEpoch c c' ∨
    ∃ presentEpoch lastUpdated, job.read = some (presentEpoch, lastUpdated) ∧
      lastUpdated + c.epochDuration < job.ranAt ∧ c.currentEpoch < presentEpoch + 1 ∧
      c'.currentEpoch = presentEpoch + 1 ∧ c'.lastUpdateTime = job.now ∧
      c'.epochDuration = c.epochDuration := by
  cases h with
  | keeps h => exact .inl h.epoch
  | marks t ids currentEpoch hs ht h =>
    rw [h]
    exact .inl ⟨rfl, rfl, rfl⟩
  | deletes t dead presentEpoch lastUpdated hs hread ht h =>
    rw [h]
    exact .inl ⟨rfl, rfl, rfl⟩
  | deletesLabels labelArray h =>
    rw [h]
    exact .inl ⟨rfl, rfl, rfl⟩
  | updatesEpoch presentEpoch lastUpdated hread h =>
    rw [h]
    unfold Catalog.updateEpoch
    split
    · rename_i hdue
      exact .inr ⟨presentEpoch, lastUpdated, hread, hdue.1, hdue.2, rfl, rfl, rfl⟩
    · exact .inl (.refl c)

theorem Statement.Effect.hasMark (h : s.Effect job c c') {T : String} {id : Nat} {epoch : Int}
    (hmark : c'.HasMark T id epoch) : c.HasMark T id epoch ∨ s = .mark (epoch - 1) := by
  cases h with
  | keeps h =>
    unfold HasMark at hmark
    rw [h.dataSeries] at hmark
    exact .inl hmark
  | marks t ids currentEpoch hs ht h =>
    rw [h] at hmark
    rcases markSeries_hasMark ht hmark with hold | rfl
    · exact .inl hold
    · exact .inr (by rw [hs, Int.add_sub_cancel])
  | deletes t dead presentEpoch lastUpdated hs hread ht h =>
    rw [h] at hmark
    exact .inl (deleteOrResurrect_hasMark ht hmark)
  | deletesLabels labelArray h =>
    rw [h] at hmark
    exact .inl hmark
  | updatesEpoch presentEpoch lastUpdated hread h =>
    unfold HasMark at hmark
    rw [h, updateEpoch_dataSeries] at hmark
    exact .inl hmark

theorem Statement.Effect.hasSeries (h : s.Effect job c c') {T : String} {id : Nat}
    {labels : List Nat} (hseries : c.HasSeries T id labels) : c'.HasSeries T id labels ∨
      ∃ presentEpoch lastUpdated epoch, s = .delete presentEpoch ∧
        job.read = some (presentEpoch, lastUpdated) ∧ epoch ≤ presentEpoch - 4 ∧
        c.HasMark T id epoch := by
  cases h with
  | keeps h =>
    unfold HasSeries at hseries
    rw [← h.dataSeries] at hseries
    exact .inl hseries
  | marks t ids currentEpoch hs ht h =>
    rw [h]
    exact .inl (setDeleteEpoch_hasSeries ht _ hseries)
  | deletes t dead presentEpoch lastUpdated hs hread ht h =>
    rw [h]
    rcases deleteOrResurrect_hasSeries ht (presentEpoch - 4) dead hseries with
      hkept | ⟨epoch, hle, hmark⟩
    · exact .inl hkept
    · exact .inr ⟨presentEpoch, lastUpdated, epoch, hs, hread, hle, hmark⟩
  | deletesLabels labelArray h =>
    rw [h]
    exact .inl hseries
  | updatesEpoch presentEpoch lastUpdated hread h =>
    unfold HasSeries
    rw [h, updateEpoch_dataSeries]
    exact .inl hseries

end

/-! ## The invariant -/

/-- The event marks series at the epoch. -/
def Event.MarksAt (c : Catalog) (epoch : Int) : Event → Prop
  | .statement _ (.mark currentEpoch) => currentEpoch = epoch
  | .call op => op.IsMarking ∧ c.currentEpoch = epoch
  | _ => False

/-- An event of the trace marked the series at the epoch, and the mark was there ever since. -/
def MarkedSince (start : World) (trace : List (Event × World)) (T : String) (id : Nat)
    (epoch : Int) : Prop :=
  ∃ before e w after, trace = before ++ (e, w) :: after ∧
    e.MarksAt (lastState start before).catalog epoch ∧
    ¬ (lastState start before).catalog.HasMark T id (epoch + 1) ∧
    ∀ w' ∈ w :: after.map (·.2), w'.catalog.HasMark T id (epoch + 1)

theorem MarkedSince.snoc {start : World} {trace : List (Event × World)} {T : String} {id : Nat}
    {epoch : Int} (h : MarkedSince start trace T id epoch) (e : Event) {w : World}
    (hmark : w.catalog.HasMark T id (epoch + 1)) :
    MarkedSince start (trace ++ [(e, w)]) T id epoch := by
  obtain ⟨before, e₀, w₀, after, rfl, hmarks, hnot, hsince⟩ := h
  refine ⟨before, e₀, w₀, after ++ [(e, w)], by simp, hmarks, hnot, fun w' hw' => ?_⟩
  rw [List.map_append, ← List.cons_append, List.mem_append] at hw'
  rcases hw' with hw' | hw'
  · exact hsince w' hw'
  · rw [List.mem_singleton.mp hw']
    exact hmark

/-- The job runs not before the time it was given, and what it has read was so at some time:
either it still is or the epoch has moved on. -/
structure Job.Inv (trace : List (Event × World)) (w : World) (id : Nat) (job : Job) : Prop where
  ranAt : job.ranAt ≤ job.now ∧ job.ranAt ≤ w.clock
  read : ∀ presentEpoch lastUpdated, job.read = some (presentEpoch, lastUpdated) →
    presentEpoch ≤ w.catalog.currentEpoch ∧
    (presentEpoch = w.catalog.currentEpoch → lastUpdated = w.catalog.lastUpdateTime) ∧
    ∃ w₀, (Event.statement id (.readEpoch presentEpoch lastUpdated), w₀) ∈ trace

structure EpochInv (start : World) (trace : List (Event × World)) (w : World) : Prop where
  last : lastState start trace = w
  wellFormed : w.catalog.WellFormed
  jobs : ∀ id job, w.jobs id = some job → job.Inv trace w id
  marks : ∀ T id epoch, w.catalog.HasMark T id epoch → MarkedSince start trace T id (epoch - 1)

theorem inv_start (collate : String → String → Bool) (timescaledbInstalled : Bool)
    (epochDuration clock : Int) :
    EpochInv (.start collate timescaledbInstalled epochDuration clock) []
      (.start collate timescaledbInstalled epochDuration clock) where
  last := rfl
  wellFormed := init_wellFormed _ _ _
  jobs id job hjob := by cases hjob
  marks T id epoch hmark := by
    obtain ⟨t, ht, -⟩ := hmark
    cases ht

section Preservation
variable {start w w' : World} {trace : List (Event × World)} {e : Event}

/-- What a job has read stays true when the epoch moves on only past it. -/
theorem Job.Inv.mono {id : Nat} {job : Job} (h : job.Inv trace w id) (hclock : w.clock ≤ w'.clock)
    (hepoch : SameEpoch w.catalog w'.catalog ∨
      w'.catalog.currentEpoch = w.catalog.currentEpoch + 1) :
    job.Inv (trace ++ [(e, w')]) w' id where
  ranAt := ⟨h.ranAt.1, Int.le_trans h.ranAt.2 hclock⟩
  read presentEpoch lastUpdated hread := by
    obtain ⟨hle, hlast, w₀, hw₀⟩ := h.read presentEpoch lastUpdated hread
    refine ⟨?_, ?_, w₀, List.mem_append_left _ hw₀⟩
    · rcases hepoch with hsame | hnext
      · rwa [hsame.currentEpoch]
      · omega
    · intro heq
      rcases hepoch with hsame | hnext
      · rw [hsame.currentEpoch] at heq
        rw [hsame.lastUpdateTime]
        exact hlast heq
      · omega

/-- What a job reads now it may use until the epoch moves on. -/
theorem reads_now {id : Nat} (hepoch : SameEpoch w.catalog w'.catalog ∨
      w'.catalog.currentEpoch = w.catalog.currentEpoch + 1)
    {trace' : List (Event × World)} (htrace : (Event.statement id
      (.readEpoch w.catalog.currentEpoch w.catalog.lastUpdateTime), w') ∈ trace') :
    w.catalog.currentEpoch ≤ w'.catalog.currentEpoch ∧
    (w.catalog.currentEpoch = w'.catalog.currentEpoch →
      w.catalog.lastUpdateTime = w'.catalog.lastUpdateTime) ∧
    ∃ w₀, (Event.statement id
      (.readEpoch w.catalog.currentEpoch w.catalog.lastUpdateTime), w₀) ∈ trace' := by
  refine ⟨?_, ?_, w', htrace⟩
  · rcases hepoch with hsame | hnext
    · exact Int.le_of_eq hsame.currentEpoch.symm
    · omega
  · intro heq
    rcases hepoch with hsame | hnext
    · exact hsame.lastUpdateTime.symm
    · omega

/-- Nothing moves the epoch but a job whose read is still true, after the duration. -/
theorem EpochInv.epoch (h : EpochInv start trace w) (heffect : e.Effect w w') :
    SameEpoch w.catalog w'.catalog ∨
      w'.catalog.currentEpoch = w.catalog.currentEpoch + 1 ∧
      w.catalog.lastUpdateTime + w.catalog.epochDuration < w'.catalog.lastUpdateTime ∧
      w'.catalog.epochDuration = w.catalog.epochDuration := by
  cases heffect with
  | ticked time htime => exact .inl (.refl _)
  | called _ id job hnew hread hnow hranAt => exact .inl (.refl _)
  | ran id s job job' c' hjob hmoves hs =>
    rcases hs.epoch with hsame | ⟨presentEpoch, lastUpdated, hread, hdue, hguard, hepoch, htime,
      hduration⟩
    · exact .inl hsame
    · have hinv := h.jobs id job hjob
      obtain ⟨hle, hlast, -⟩ := hinv.read presentEpoch lastUpdated hread
      have heq : presentEpoch = w.catalog.currentEpoch := by omega
      have hranAt := hinv.ranAt.1
      rw [hlast heq] at hdue
      refine .inr ⟨by rw [hepoch, heq], ?_, hduration⟩
      dsimp only
      omega
  | stepped op hop => exact .inl (step_sameEpoch h.wellFormed hop)

theorem EpochInv.wellFormed_next (h : EpochInv start trace w) (heffect : e.Effect w w') :
    w'.catalog.WellFormed := by
  cases heffect with
  | ticked time htime => exact h.wellFormed
  | called _ id job hnew hread hnow hranAt => exact h.wellFormed
  | ran id s job job' c' hjob hmoves hs => exact hs.wellFormed h.wellFormed
  | stepped op hop => exact step_wellFormed h.wellFormed op

theorem EpochInv.jobs_next (h : EpochInv start trace w) (heffect : e.Effect w w') (id : Nat)
    (job : Job) (hjob : w'.jobs id = some job) : job.Inv (trace ++ [(e, w')]) w' id := by
  have hepoch : SameEpoch w.catalog w'.catalog ∨
      w'.catalog.currentEpoch = w.catalog.currentEpoch + 1 :=
    (h.epoch heffect).imp_right (·.1)
  cases heffect with
  | ticked time htime => exact (h.jobs id job hjob).mono htime hepoch
  | called _ id' job' hnew hread hnow hranAt =>
    by_cases hid : id = id'
    · subst hid
      rw [show World.jobs _ id = _ from assign_self id (some job') w.jobs] at hjob
      cases hjob
      refine ⟨⟨by rw [hnow]; exact hranAt, hranAt⟩, fun presentEpoch lastUpdated hread' => ?_⟩
      rw [hread] at hread'
      cases hread'
    · rw [show World.jobs _ id = _ from assign_of_ne hid (some job') w.jobs] at hjob
      exact (h.jobs id job hjob).mono (Int.le_refl _) hepoch
  | ran id' s job₀ job' c' hjob₀ hmoves hs =>
    by_cases hid : id = id'
    · subst hid
      rw [show World.jobs _ id = _ from assign_self id (some job') w.jobs] at hjob
      cases hjob
      have hinv := h.jobs id job₀ hjob₀
      constructor
      · rw [hmoves.ranAt]
        rcases hmoves.now with hnow | hnow
        · rw [hnow]
          exact hinv.ranAt
        · rw [hnow]
          exact ⟨hinv.ranAt.2, hinv.ranAt.2⟩
      · intro presentEpoch lastUpdated hread
        rcases hmoves.read with hsame | ⟨rfl, hnew⟩
        · rw [hsame] at hread
          refine (hinv.mono ?_ hepoch).read presentEpoch lastUpdated hread
          exact Int.le_refl _
        · rw [hnew] at hread
          cases hread
          exact reads_now hepoch (List.mem_append_right _ (List.mem_singleton_self _))
    · rw [show World.jobs _ id = _ from assign_of_ne hid (some job') w.jobs] at hjob
      exact (h.jobs id job hjob).mono (Int.le_refl _) hepoch
  | stepped op hop => exact (h.jobs id job hjob).mono (Int.le_refl _) hepoch

theorem EpochInv.marks_next (h : EpochInv start trace w) (heffect : e.Effect w w') (T : String)
    (id : Nat) (epoch : Int) (hmark : w'.catalog.HasMark T id epoch) :
    MarkedSince start (trace ++ [(e, w')]) T id (epoch - 1) := by
  by_cases hold : w.catalog.HasMark T id epoch
  · exact (h.marks T id epoch hold).snoc e (by rwa [Int.sub_add_cancel])
  · -- the mark is new
    have hmarks : e.MarksAt w.catalog (epoch - 1) := by
      cases heffect with
      | ticked time htime => exact absurd hmark hold
      | called _ id job hnew hread hnow hranAt => exact absurd hmark hold
      | ran id' s job job' c' hjob hmoves hs =>
        rcases hs.hasMark hmark with hmark | rfl
        · exact absurd hmark hold
        · exact rfl
      | stepped op hop =>
        rcases step_hasMark h.wellFormed hop hmark with hmark | ⟨hmarking, rfl⟩
        · exact absurd hmark hold
        · exact ⟨hmarking, (Int.add_sub_cancel _ _).symm⟩
    refine ⟨trace, e, w', [], rfl, ?_, ?_, ?_⟩
    · rwa [h.last]
    · rwa [h.last, Int.sub_add_cancel]
    · intro w₀ hw₀
      rw [List.mem_singleton.mp hw₀, Int.sub_add_cancel]
      exact hmark

/-- Step lemma. -/
theorem EpochInv.step (h : EpochInv start trace w) (hstep : Step w e w') :
    EpochInv start (trace ++ [(e, w')]) w' where
  last := by simp [lastState]
  wellFormed := h.wellFormed_next (next_effect hstep)
  jobs := h.jobs_next (next_effect hstep)
  marks := h.marks_next (next_effect hstep)

end Preservation

section
variable (collate : String → String → Bool) (timescaledbInstalled : Bool)
  (epochDuration clock : Int)

theorem epochInv_of_run {trace : List (Event × World)} {w : World}
    (h : Run Step (.start collate timescaledbInstalled epochDuration clock) trace w) :
    EpochInv (.start collate timescaledbInstalled epochDuration clock) trace w :=
  h.invariant (inv_start _ _ _ _) fun _ _ _ _ hinv hstep => hinv.step hstep

/-- The duration is never changed. -/
theorem epochDuration_of_run {trace : List (Event × World)} {w : World}
    (h : Run Step (.start collate timescaledbInstalled epochDuration clock) trace w) :
    w.catalog.epochDuration = epochDuration := by
  induction h with
  | nil => rfl
  | snoc hrun hstep ih =>
    rcases (epochInv_of_run _ _ _ _ hrun).epoch (next_effect hstep) with hsame | ⟨-, -, hduration⟩
    · exact hsame.epochDuration.trans ih
    · exact hduration.trans ih

/-- After every run of any number of jobs and other calls: a further event leaves the epoch as
it is, or moves it by one, more than its duration after the last time; and a series row that
goes with it goes with its metric, or is deleted by a job that has read an epoch at least five
past the one at which the row was marked, with a mark that was there ever since. -/
theorem epochs_safe {trace : List (Event × World)} {w w' : World} {e : Event}
    (hrun : Run Step (.start collate timescaledbInstalled epochDuration clock) trace w)
    (hstep : Step w e w') :
    (SameEpoch w.catalog w'.catalog ∨
      w'.catalog.currentEpoch = w.catalog.currentEpoch + 1 ∧
        w.catalog.lastUpdateTime + epochDuration < w'.catalog.lastUpdateTime) ∧
    ∀ T id labels, w.catalog.HasSeries T id labels → ¬ w'.catalog.HasSeries T id labels →
      (∃ metricName scan, e = .call (.dropMetric metricName scan)) ∨
      ∃ job presentEpoch lastUpdated w₀ epoch, e = .statement job (.delete presentEpoch) ∧
        (Event.statement job (.readEpoch presentEpoch lastUpdated), w₀) ∈ trace ∧
        epoch + 5 ≤ presentEpoch ∧ MarkedSince
          (.start collate timescaledbInstalled epochDuration clock) trace T id epoch := by
  have hinv := epochInv_of_run _ _ _ _ hrun
  have hduration := epochDuration_of_run _ _ _ _ hrun
  have heffect := next_effect hstep
  constructor
  · rcases hinv.epoch heffect with hsame | ⟨hepoch, htime, -⟩
    · exact .inl hsame
    · rw [hduration] at htime
      exact .inr ⟨hepoch, htime⟩
  · intro T id labels hseries hgone
    cases heffect with
    | ticked time htime => exact absurd hseries hgone
    | called _ id job hnew hread hnow hranAt => exact absurd hseries hgone
    | ran jobId s job job' c' hjob hmoves hs =>
      rcases hs.hasSeries hseries with hkept | ⟨presentEpoch, lastUpdated, epoch, rfl, hread, hle,
        hmark⟩
      · exact absurd hkept hgone
      · obtain ⟨-, -, w₀, hw₀⟩ := (hinv.jobs jobId job hjob).read presentEpoch lastUpdated hread
        exact .inr ⟨jobId, presentEpoch, lastUpdated, w₀, epoch - 1, rfl, hw₀, by omega,
          hinv.marks T id epoch hmark⟩
    | stepped op hop =>
      rcases step_hasSeries hinv.wellFormed hop hseries with hkept | ⟨metricName, scan, rfl⟩
      · exact absurd hkept hgone
      · exact .inl ⟨metricName, scan, rfl⟩

end

/-! ## A run that deletes -/

/-- A metric with one series and one sample. -/
def beforeMarking : Catalog :=
  step (step newDatabase (.getOrCreateSeriesId [("__name__", "cpu"), ("host", "x")]))
    (.insertSamples "cpu" [⟨0, 1⟩])

def afterMarking : Catalog :=
  step (step beforeMarking (.markSeriesToBeDroppedAsUnused "prom_data" "cpu" "cpu" 10))
    (.dropMetricChunkData "prom_data" "cpu" 10 fun _ => 10)

/-- A job that marks the series and drops its chunk. -/
def markingRun : List Event :=
  [.call (.getOrCreateSeriesId [("__name__", "cpu"), ("host", "x")]),
    .call (.insertSamples "cpu" [⟨0, 1⟩]),
    .dropMetricChunks 0 "prom_data" "cpu" 10 0, .statement 0 (.findDropPoint [10]),
    .statement 0 (.readEpoch 0 0), .statement 0 .commit, .statement 0 (.findUnused beforeMarking),
    .statement 0 (.mark 0), .statement 0 .commit, .statement 0 (.dropChunks fun _ => 10)]

/-- The job that moves the epoch on from `epoch`. -/
def epochRun (epoch : Nat) : List Event :=
  [.tick (13 * (epoch + 1) * hour),
    .deleteExpiredSeries (epoch + 1) "prom_data" "cpu" "cpu" (13 * (epoch + 1) * hour),
    .statement (epoch + 1) (.readEpoch epoch (13 * epoch * hour)),
    .statement (epoch + 1) (.findDead afterMarking), .statement (epoch + 1) (.delete epoch),
    .statement (epoch + 1) .deleteLabels, .statement (epoch + 1) .updateEpoch]

def deletingRun : List Event :=
  markingRun ++ (List.range 5).flatMap epochRun ++ (epochRun 5).take 4

theorem epochs_safe_deletingRun :
    ∃ trace w w', Run Step (.start (fun a b => decide (a ≤ b)) true (12 * hour) 0) trace w ∧
      Step w (.statement 6 (.delete 5)) w' ∧ w.catalog.HasSeries "cpu" 1 [1, 2] ∧
      ¬ w'.catalog.HasSeries "cpu" 1 [1, 2] ∧ ∃ epoch, epoch + 5 ≤ 5 ∧ MarkedSince
        (.start (fun a b => decide (a ≤ b)) true (12 * hour) 0) trace "cpu" 1 epoch := by
  have hreplay : ((deletingRun.foldlM World.next
      (.start (fun a b => decide (a ≤ b)) true (12 * hour) 0)).bind fun w =>
        (w.next (.statement 6 (.delete 5))).bind fun w' =>
          (w.catalog.dataSeries "cpu").bind fun t => (w'.catalog.dataSeries "cpu").map fun t' =>
            (t.series.rows, t'.series.rows)) = some ([⟨1, 1, [1, 2], some 1⟩], []) := by
    decide +kernel
  obtain ⟨w, hw, hreplay⟩ := Option.bind_eq_some_iff.mp hreplay
  obtain ⟨w', hstep, hreplay⟩ := Option.bind_eq_some_iff.mp hreplay
  obtain ⟨t, ht, hreplay⟩ := Option.bind_eq_some_iff.mp hreplay
  obtain ⟨t', ht', hrows⟩ := Option.map_eq_some_iff.mp hreplay
  obtain ⟨hrows, hrows'⟩ := Prod.mk.inj hrows
  have hseries : w.catalog.HasSeries "cpu" 1 [1, 2] :=
    ⟨t, ht, _, by rw [hrows]; exact List.mem_singleton_self _, rfl, rfl⟩
  have hgone : ¬ w'.catalog.HasSeries "cpu" 1 [1, 2] := by
    rintro ⟨t'', ht'', s, hs, -⟩
    rw [ht', Option.some_inj] at ht''
    rw [← ht'', hrows'] at hs
    cases hs
  obtain ⟨trace, hrun⟩ := Run.replay (fun e _ _ _ hnext => ⟨e, hnext⟩) .nil hw
  refine ⟨_, w, w', hrun, hstep, hseries, hgone, ?_⟩
  rcases (epochs_safe _ _ _ _ hrun hstep).2 "cpu" 1 [1, 2] hseries hgone with
    ⟨_, _, hevent⟩ | ⟨job, presentEpoch, lastUpdated, w₀, epoch, hevent, -, hle, hmarked⟩
  · cases hevent
  · cases hevent
    exact ⟨epoch, hle, hmarked⟩

end Promscale.Catalog
