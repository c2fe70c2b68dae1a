import Promscale.Catalog.MetricCreation
import Promscale.Catalog.MetricViews

/-!
# What concurrent creations answer

The loop of `create_metric_table` looks for the metric's name in all schemas. A view may have
it, and then the call answers with the view. And an insert may be in conflict with the table
name of another metric, and then there is no row with the name and the loop goes on.
-/
namespace Promscale.Catalog.Creations

open Promscale.Lib

/-! ## Settled calls -/

/-- The answer of a call is the raw metric of its name. -/
def AnswersRaw (w : Creations) (r : Creating) (answer : Nat × String) : Prop :=
  ∃ v ∈ w.metric.rows, sees r.txn v = true ∧ v.metric.metricName = r.call.metricName ∧
    v.metric.tableSchema = promData ∧ answer = (v.metric.id, v.metric.tableName)

def firstRound : CreationPc → Bool
  | .insert _ round => round = 1
  | .select _ round => round = 1
  | _ => true

structure Settles (w : Creations) : Prop where
  answersRaw : ∀ r ∈ w.calls, ∀ answer, r.pc = .returned answer → w.AnswersRaw r answer
  sameAnswer : ∀ r ∈ w.calls, ∀ r' ∈ w.calls, r.call.metricName = r'.call.metricName →
    ∀ answer answer', r.pc = .returned answer → r'.pc = .returned answer' → answer = answer'
  /-- No call goes round its loop. -/
  firstRound : ∀ r ∈ w.calls, firstRound r.pc = true
  /-- A call that has not ended runs its next statement, or waits for an open transaction. -/
  proceeds : ∀ i r, w.calls[i]? = some r → r.pc.ended = false → ∀ scan,
    (w.next (.statement i scan)).isSome = true ∨ ∃ v ∈ w.metric.rows, ∃ txn,
      v.insertedBy = some txn ∧ txn ≠ r.txn ∧ txn ∉ w.endedTxns

/-- The `SELECT` of a loop finds a row with the name, and meets the raw metric's first. -/
def SelectsRaw (w : Creations) (r : Creating) (scan : Nat) : Prop :=
  ∀ newId round, r.pc = .select newId round →
    ∃ m, w.selectByName r.txn r.call.metricName scan = some m ∧ m.tableSchema = promData

def FindsRaw (w : Creations) : CreationEvent → Prop
  | .statement i scan => ∀ r, w.calls[i]? = some r → w.SelectsRaw r scan
  | _ => True

/-! ## What every run keeps -/

structure Inv (w : Creations) : Prop where
  openRow : ∀ v ∈ w.metric.rows, ∀ txn, v.insertedBy = some txn → txn ∉ w.endedTxns
  openCall : ∀ r ∈ w.calls, r.pc.ended = false → r.txn ∉ w.endedTxns

/-- What a statement does, apart from what it answers. -/
structure Advances (w w' : Creations) (i : Nat) (r : Creating) (pc : CreationPc) : Prop where
  running : r.pc.ended = false
  calls : w'.calls = w.calls.set i { r with pc := pc }
  endedTxns : w'.endedTxns = w.endedTxns
  kept : ∀ v ∈ w.metric.rows, v ∈ w'.metric.rows
  inserted : ∀ v ∈ w'.metric.rows, v ∈ w.metric.rows ∨ v.insertedBy = some r.txn

theorem advances_goto (w : Creations) (i : Nat) {r : Creating} (hrunning : r.pc.ended = false)
    (pc : CreationPc) : Advances w (w.goto i r pc) i r pc where
  running := hrunning
  calls := rfl
  endedTxns := rfl
  kept _ hv := hv
  inserted _ hv := .inl hv

/-- What `Settles` asks of one call. -/
def Fine (w : Creations) (r : Creating) : Prop :=
  (∀ answer, r.pc = .returned answer → w.AnswersRaw r answer) ∧ firstRound r.pc = true

theorem fine_of_running {w : Creations} {r : Creating} (hfirst : firstRound r.pc = true)
    (hrunning : r.pc.ended = false) : Fine w r := by
  refine ⟨?_, hfirst⟩
  intro answer hpc
  rw [hpc] at hrunning
  cases hrunning

theorem mem_visible {w : Creations} {txn : Nat} {m : Metric} :
    m ∈ w.visible txn ↔ ∃ v ∈ w.metric.rows, sees txn v = true ∧ v.metric = m := by
  simp [visible, and_assoc]

theorem mem_of_selectByName {w : Creations} {txn : Nat} {metricName : String} {scan : Nat}
    {m : Metric} (h : w.selectByName txn metricName scan = some m) :
    m.metricName = metricName ∧ ∃ v ∈ w.metric.rows, sees txn v = true ∧ v.metric = m := by
  have hm := List.mem_filter.mp (List.mem_of_getElem? h)
  exact ⟨of_decide_eq_true hm.2, mem_visible.mp hm.1⟩

/-- An answer with the row of a view is no answer with a raw metric: ids tell rows apart. -/
theorem answersRaw_iff {w : Creations} {r : Creating} {m : Metric}
    (hname : m.metricName = r.call.metricName)
    (hm : ∃ v ∈ w.metric.rows, sees r.txn v = true ∧ v.metric = m) :
    w.AnswersRaw r (m.id, m.tableName) ↔ m.tableSchema = promData := by
  obtain ⟨v, hv, hsees, rfl⟩ := hm
  constructor
  · rintro ⟨v', hv', -, -, hschema, hanswer⟩
    have heq := w.metric.eq_of_conflict hv hv' (by
      simp [Version.constraints, Metric.constraints, (Prod.mk.inj hanswer).1])
    rw [heq]
    exact hschema
  · intro hschema
    exact ⟨v, hv, hsees, hname, hschema, rfl⟩

/-- What each statement has found, and where it leaves its call and the table. -/
inductive Executes (w : Creations) (i : Nat) (r : Creating) (scan : Nat) : Creations → Prop
  | found {m : Metric} (hpc : r.pc = .find)
      (hfind : ((w.visible r.txn).find? fun m =>
        m.metricName = r.call.metricName && m.tableSchema = promData) = some m) :
      Executes w i r scan (w.goto i r (.returned (m.id, m.tableName)))
  | missing (hpc : r.pc = .find) : Executes w i r scan (w.goto i r .nextval)
  | nextval (hpc : r.pc = .nextval) : Executes w i r scan
      { w.goto i r (.insert (w.metricIdSeq + 1) 1) with metricIdSeq := w.metricIdSeq + 1 }
  | inserted {newId round : Nat} {metric : Table Version Version.constraints}
      (hpc : r.pc = .insert newId round)
      (hinsert : w.metric.insert ⟨newRawMetric newId r.call.metricName, some r.txn⟩ rfl =
        some metric) :
      Executes w i r scan { w.goto i r (.returned (newId,
        (newRawMetric newId r.call.metricName).tableName)) with metric := metric }
  | conflict {newId round : Nat} (hpc : r.pc = .insert newId round)
      (hat : w.conflictsAtOnce r.txn (newRawMetric newId r.call.metricName) = true) :
      Executes w i r scan (w.goto i r (.select newId round))
  | selected {newId round : Nat} {m : Metric} (hpc : r.pc = .select newId round)
      (hselect : w.selectByName r.txn r.call.metricName scan = some m) :
      Executes w i r scan (w.goto i r (.returned (m.id, m.tableName)))
  | again {newId round : Nat} (hpc : r.pc = .select newId round)
      (hselect : w.selectByName r.txn r.call.metricName scan = none) :
      Executes w i r scan (w.goto i r (.insert newId (round + 1)))

theorem statement_executes {w w' : Creations} {i : Nat} {r : Creating} {scan : Nat}
    (h : w.statement i r scan = some w') : Executes w i r scan w' := by
  unfold statement at h
  split at h
  · rename_i hpc
    split at h
    · rename_i m hfind
      cases h
      exact .found hpc hfind
    · cases h
      exact .missing hpc
  · rename_i hpc
    cases h
    exact .nextval hpc
  · rename_i newId round hpc
    dsimp only at h
    split at h
    · rename_i metric hinsert
      cases h
      exact .inserted hpc hinsert
    · split at h
      · rename_i hat
        cases h
        exact .conflict hpc hat
      · cases h
  · rename_i newId round hpc
    split at h
    · rename_i m hselect
      cases h
      exact .selected hpc hselect
    · rename_i hselect
      cases h
      exact .again hpc hselect
  · cases h

/-- A statement leaves its call fine exactly when it is no `SELECT` that misses the raw row. -/
def FineUnlessMissed (w w' : Creations) (i : Nat) (r : Creating) (scan : Nat) : Prop :=
  ∃ pc, Advances w w' i r pc ∧
    (Fine w r → (Fine w' { r with pc := pc } ↔ w.SelectsRaw r scan))

theorem fine_of_no_select {w w' : Creations} {i : Nat} {r : Creating} {pc : CreationPc}
    (hadvances : Advances w w' i r pc) (hselect : ∀ newId round, r.pc ≠ .select newId round)
    (hfine : Fine w r → Fine w' { r with pc := pc }) (scan : Nat) :
    FineUnlessMissed w w' i r scan := by
  have hselects : w.SelectsRaw r scan :=
    fun newId round hpc => absurd hpc (hselect newId round)
  exact ⟨pc, hadvances, fun h => iff_of_true (hfine h) hselects⟩

theorem statement_advances {w w' : Creations} {i : Nat} {r : Creating} {scan : Nat}
    (h : w.statement i r scan = some w') : FineUnlessMissed w w' i r scan := by
  cases statement_executes h with
  | @found m hpc hfind =>
    refine fine_of_no_select (advances_goto w i (by rw [hpc]; rfl) _) (by simp [hpc])
      (fun _ => ⟨?_, rfl⟩) scan
    intro answer hanswer
    cases hanswer
    have hfound := List.find?_some hfind
    simp only [Bool.and_eq_true, decide_eq_true_eq] at hfound
    have hvisible := mem_visible.mp (List.mem_of_find?_eq_some hfind)
    exact (@answersRaw_iff w r m hfound.1 hvisible).mpr hfound.2
  | missing hpc =>
    exact fine_of_no_select (advances_goto w i (by rw [hpc]; rfl) _) (by simp [hpc])
      (fun _ => fine_of_running rfl rfl) scan
  | nextval hpc =>
    exact @fine_of_no_select w { w.goto i r _ with metricIdSeq := w.metricIdSeq + 1 } i r
      (.insert (w.metricIdSeq + 1) 1) { advances_goto w i (by rw [hpc]; rfl) _ with }
      (by simp [hpc]) (fun _ => fine_of_running rfl rfl) scan
  | @inserted newId round metric hpc hinsert =>
    have hmem := Table.mem_insert hinsert
    refine @fine_of_no_select w { w.goto i r (.returned _) with metric := metric } i r _
      ⟨by rw [hpc]; rfl, rfl, rfl, fun v hv => (hmem v).mpr (.inl hv), ?_⟩ (by simp [hpc])
      (fun _ => ⟨?_, rfl⟩) scan
    · intro v hv
      rcases (hmem v).mp hv with hold | rfl
      · exact .inl hold
      · exact .inr rfl
    · intro answer hanswer
      cases hanswer
      exact ⟨_, (hmem _).mpr (.inr rfl), by simp [sees], rfl, rfl, rfl⟩
  | conflict hpc hat =>
    refine fine_of_no_select (advances_goto w i (by rw [hpc]; rfl) _) (by simp [hpc])
      (fun hfine => ?_) scan
    have hfirst := hfine.2
    rw [hpc] at hfirst
    exact fine_of_running hfirst rfl
  | @selected newId round m hpc hselect =>
    refine ⟨_, advances_goto w i (by rw [hpc]; rfl) _, fun _ => ?_⟩
    obtain ⟨hname, hm⟩ := mem_of_selectByName hselect
    have hraw := @answersRaw_iff w r m hname hm
    constructor
    · intro hfine newId round _
      exact ⟨m, hselect, hraw.mp (hfine.1 _ rfl)⟩
    · intro hselects
      obtain ⟨m', hselect', hschema⟩ := hselects newId round hpc
      rw [hselect] at hselect'
      cases hselect'
      refine ⟨?_, rfl⟩
      intro answer hanswer
      cases hanswer
      exact hraw.mpr hschema
  | @again newId round hpc hselect =>
    -- No row has the name: the call is in a later round, and no longer fine.
    refine ⟨_, advances_goto w i (by rw [hpc]; rfl) _, fun hfine => iff_of_false ?_ ?_⟩
    · intro hfine'
      have hfirst := hfine.2
      have hsecond := hfine'.2
      rw [hpc] at hfirst
      simp [Creations.firstRound] at hfirst hsecond
      omega
    · intro hselects
      obtain ⟨m, hselect', -⟩ := hselects newId round hpc
      rw [hselect] at hselect'
      cases hselect'

/-- All that an event can do. -/
theorem next_cases {w w' : Creations} {e : CreationEvent} (h : w.next e = some w') :
    (∃ txn call, e = .call txn call ∧ txn ∉ w.endedTxns ∧ w.busy txn = false ∧
      w' = { w with calls := w.calls ++ [⟨txn, call, call.start⟩] }) ∨
    (∃ i scan r, e = .statement i scan ∧ w.calls[i]? = some r ∧
      w.statement i r scan = some w') ∨
    (∃ txn, e = .commit txn ∧ txn ∉ w.endedTxns ∧ w.busy txn = false ∧
      w' = { w with metric := commitRows txn w.metric, endedTxns := txn :: w.endedTxns }) ∨
    (∃ txn, e = .rollback txn ∧ txn ∉ w.endedTxns ∧
      w' = { w with
        metric := w.metric.delete fun v => v.insertedBy = some txn
        calls := w.calls.map (abortCall txn)
        endedTxns := txn :: w.endedTxns }) := by
  cases e with
  | call txn call =>
    simp only [next] at h
    split at h
    · cases h
    · rename_i hopen
      simp only [Bool.or_eq_true, decide_eq_true_eq, not_or, Bool.not_eq_true] at hopen
      exact .inl ⟨txn, call, rfl, hopen.1, hopen.2, (Option.some.inj h).symm⟩
  | statement i scan =>
    simp only [next] at h
    split at h
    · cases h
    · rename_i r hr
      exact .inr (.inl ⟨i, scan, r, rfl, hr, h⟩)
  | commit txn =>
    simp only [next] at h
    split at h
    · cases h
    · rename_i hopen
      simp only [Bool.or_eq_true, decide_eq_true_eq, not_or, Bool.not_eq_true] at hopen
      exact .inr (.inr (.inl ⟨txn, rfl, hopen.1, hopen.2, (Option.some.inj h).symm⟩))
  | rollback txn =>
    simp only [next] at h
    split at h
    · cases h
    · rename_i hopen
      exact .inr (.inr (.inr ⟨txn, rfl, hopen, (Option.some.inj h).symm⟩))

theorem mem_calls_of_advances {w w' : Creations} {i : Nat} {r : Creating} {pc : CreationPc}
    (h : Advances w w' i r pc) (hr : w.calls[i]? = some r) (r' : Creating) :
    r' ∈ w'.calls ↔ r' = { r with pc := pc } ∨ ∃ j, j ≠ i ∧ w.calls[j]? = some r' := by
  rw [h.calls, List.mem_iff_getElem?]
  have hi : i < w.calls.length := (List.getElem?_eq_some_iff.mp hr).1
  constructor
  · rintro ⟨j, hj⟩
    by_cases hij : j = i
    · subst hij
      rw [List.getElem?_set_self hi] at hj
      exact .inl (Option.some.inj hj).symm
    · rw [List.getElem?_set_ne (Ne.symm hij)] at hj
      exact .inr ⟨j, hij, hj⟩
  · rintro (rfl | ⟨j, hij, hj⟩)
    · exact ⟨i, List.getElem?_set_self hi⟩
    · exact ⟨j, by rw [List.getElem?_set_ne (Ne.symm hij)]; exact hj⟩

theorem not_ended_of_not_busy {w : Creations} {txn : Nat} (h : w.busy txn = false) {r : Creating}
    (hr : r ∈ w.calls) (hrunning : r.pc.ended = false) : r.txn ≠ txn := by
  rintro rfl
  have hbusy : w.busy r.txn = true :=
    List.any_eq_true.mpr ⟨r, hr, by simp [hrunning]⟩
  rw [h] at hbusy
  cases hbusy

theorem inv_of_advances {w w' : Creations} {i : Nat} {r : Creating} {pc : CreationPc} (hinv : Inv w)
    (hr : w.calls[i]? = some r) (hadvances : Advances w w' i r pc) : Inv w' := by
  have hopen := hinv.openCall r (List.mem_of_getElem? hr) hadvances.running
  refine ⟨?_, ?_⟩
  · intro v hv txn htxn
    rw [hadvances.endedTxns]
    rcases hadvances.inserted v hv with hold | hnew
    · exact hinv.openRow v hold txn htxn
    · rw [hnew] at htxn
      cases htxn
      exact hopen
  · intro r' hr' hrunning
    rw [hadvances.endedTxns]
    rcases (mem_calls_of_advances hadvances hr r').mp hr' with rfl | ⟨j, -, hj⟩
    · exact hopen
    · exact hinv.openCall r' (List.mem_of_getElem? hj) hrunning

theorem openRow_commit {w : Creations} (hinv : Inv w) (txn : Nat) :
    ∀ v ∈ (commitRows txn w.metric).rows, ∀ txn', v.insertedBy = some txn' →
      txn' ∉ txn :: w.endedTxns := by
  intro v hv txn' htxn'
  obtain ⟨old, hold, rfl⟩ := mem_commitRows.mp hv
  simp only [commitRow] at htxn'
  split at htxn'
  · cases htxn'
  · rename_i hne
    refine List.not_mem_cons_of_ne_of_not_mem ?_ (hinv.openRow old hold txn' htxn')
    rintro rfl
    exact hne htxn'

theorem openRow_rollback {w : Creations} (hinv : Inv w) (txn : Nat) :
    ∀ v ∈ (w.metric.delete fun v => v.insertedBy = some txn).rows, ∀ txn',
      v.insertedBy = some txn' → txn' ∉ txn :: w.endedTxns := by
  intro v hv txn' htxn'
  obtain ⟨hv, hne⟩ := (Table.mem_delete _ _ _).mp hv
  refine List.not_mem_cons_of_ne_of_not_mem ?_ (hinv.openRow v hv txn' htxn')
  rintro rfl
  simp [htxn'] at hne

theorem openCall_rollback {w : Creations} (hinv : Inv w) (txn : Nat) :
    ∀ r ∈ w.calls.map (abortCall txn), r.pc.ended = false → r.txn ∉ txn :: w.endedTxns := by
  intro r hr hrunning
  obtain ⟨old, hold, rfl⟩ := List.mem_map.mp hr
  unfold abortCall at hrunning ⊢
  split
  · rename_i htxn
    rw [if_pos htxn] at hrunning
    cases hrunning
  · rename_i htxn
    rw [if_neg htxn] at hrunning
    exact List.not_mem_cons_of_ne_of_not_mem htxn (hinv.openCall old hold hrunning)

theorem inv_next {w w' : Creations} {e : CreationEvent} (hinv : Inv w) (h : w.next e = some w') :
    Inv w' := by
  rcases next_cases h with ⟨txn, call, -, hopen, -, rfl⟩ | ⟨i, scan, r, -, hr, hstatement⟩ |
    ⟨txn, -, -, hidle, rfl⟩ | ⟨txn, -, -, rfl⟩
  · refine ⟨hinv.openRow, ?_⟩
    intro r hr hrunning
    rcases List.mem_append.mp hr with hr | hr
    · exact hinv.openCall r hr hrunning
    · rw [List.mem_singleton.mp hr]
      exact hopen
  · obtain ⟨pc, hadvances, -⟩ := statement_advances hstatement
    exact inv_of_advances hinv hr hadvances
  · refine ⟨openRow_commit hinv txn, ?_⟩
    intro r hr hrunning
    exact List.not_mem_cons_of_ne_of_not_mem (not_ended_of_not_busy hidle hr hrunning)
      (hinv.openCall r hr hrunning)
  · exact ⟨openRow_rollback hinv txn, openCall_rollback hinv txn⟩

theorem inv_step (w : Creations) (e : CreationEvent) (hinv : Inv w) : Inv (w.step e) := by
  unfold step
  cases h : w.next e with
  | none => exact hinv
  | some w' => exact inv_next hinv h

theorem inv_ofCatalog (c : Catalog) : Inv (ofCatalog c) where
  openRow v hv txn htxn := by
    obtain ⟨m, -, rfl⟩ := List.mem_map.mp hv
    cases htxn
  openCall r hr := by simp [ofCatalog] at hr

theorem proceeds_of_inv {w : Creations} (hinv : Inv w) {i : Nat} {r : Creating}
    (hr : w.calls[i]? = some r) (hrunning : r.pc.ended = false) (scan : Nat) :
    (w.next (.statement i scan)).isSome = true ∨ ∃ v ∈ w.metric.rows, ∃ txn,
      v.insertedBy = some txn ∧ txn ≠ r.txn ∧ txn ∉ w.endedTxns := by
  simp only [next, hr, statement]
  cases hpc : r.pc with
  | find =>
    dsimp only
    split
    · exact .inl rfl
    · exact .inl rfl
  | nextval => exact .inl rfl
  | insert newId round =>
    dsimp only
    split
    · exact .inl rfl
    · rename_i hinsert
      split
      · exact .inl rfl
      · rename_i hwaits
        obtain ⟨v, hv, hunseen⟩ := exists_unseen_of_waits hinsert (by simpa using hwaits)
        cases htxn : v.insertedBy with
        | none => simp [sees, htxn] at hunseen
        | some txn =>
          refine .inr ⟨v, hv, txn, htxn, ?_, hinv.openRow v hv txn htxn⟩
          rintro rfl
          simp [sees, htxn] at hunseen
  | select newId round =>
    dsimp only
    split
    · exact .inl rfl
    · exact .inl rfl
  | returned answer =>
    rw [hpc] at hrunning
    cases hrunning
  | aborted =>
    rw [hpc] at hrunning
    cases hrunning

/-! ## Runs -/

theorem settles_iff {w : Creations} (hinv : Inv w) : Settles w ↔ ∀ r ∈ w.calls, Fine w r := by
  constructor
  · intro h r hr
    exact ⟨h.answersRaw r hr, h.firstRound r hr⟩
  · intro h
    refine ⟨fun r hr => (h r hr).1, ?_, fun r hr => (h r hr).2,
      fun i r hr hrunning scan => proceeds_of_inv hinv hr hrunning scan⟩
    intro r hr r' hr' hname answer answer' hpc hpc'
    obtain ⟨v, hv, -, hv_name, hv_schema, rfl⟩ := (h r hr).1 answer hpc
    obtain ⟨v', hv', -, hv_name', hv_schema', rfl⟩ := (h r' hr').1 answer' hpc'
    have heq := w.metric.eq_of_conflict hv hv' (by
      simp [Version.constraints, Metric.constraints, hv_name, hv_name', hname, hv_schema,
        hv_schema'])
    rw [heq]

/-- Rows that a call sees stay, apart from the mark of their transaction. -/
theorem fine_mono {w w' : Creations} {r : Creating}
    (hkept : ∀ v ∈ w.metric.rows, sees r.txn v = true →
      ∃ v' ∈ w'.metric.rows, sees r.txn v' = true ∧ v'.metric = v.metric)
    (h : Fine w r) : Fine w' r := by
  refine ⟨?_, h.2⟩
  intro answer hpc
  obtain ⟨v, hv, hsees, hname, hschema, hanswer⟩ := h.1 answer hpc
  obtain ⟨v', hv', hsees', hmetric⟩ := hkept v hv hsees
  rw [← hmetric] at hname hschema hanswer
  exact ⟨v', hv', hsees', hname, hschema, hanswer⟩

theorem fine_start (w : Creations) (txn : Nat) (call : CreationCall) :
    Fine w ⟨txn, call, call.start⟩ := by
  cases call with
  | getOrCreateMetricTableName metricName => exact fine_of_running rfl rfl
  | createMetricTable metricNameArg => exact fine_of_running rfl rfl

theorem sees_commitRow {reader txn : Nat} {v : Version} (h : sees reader v = true) :
    sees reader (commitRow txn v) = true := by
  unfold commitRow
  by_cases htxn : v.insertedBy = some txn
  · simp [sees, htxn]
  · simpa [sees, htxn] using h

/-- What a call sees is not of another open transaction. -/
theorem not_insertedBy_of_sees {reader txn : Nat} {v : Version} (hne : reader ≠ txn)
    (h : sees reader v = true) : decide (v.insertedBy = some txn) = false := by
  have hother : some reader ≠ some txn := fun heq => hne (Option.some.inj heq)
  rcases (Bool.or_eq_true _ _).mp h with hnone | hown
  · simp [of_decide_eq_true hnone]
  · rw [of_decide_eq_true hown]
    exact decide_eq_false hother

theorem fine_commit {w : Creations} {r : Creating} (h : Fine w r) (txn : Nat) :
    Fine { w with metric := commitRows txn w.metric, endedTxns := txn :: w.endedTxns } r := by
  refine fine_mono ?_ h
  intro v hv hsees
  exact ⟨commitRow txn v, mem_commitRows.mpr ⟨v, hv, rfl⟩, sees_commitRow hsees, rfl⟩

/-- A rollback takes away rows that no call of another transaction sees. -/
theorem fine_rollback {w : Creations} {r : Creating} (h : Fine w r) (txn : Nat) :
    Fine { w with
      metric := w.metric.delete fun v => v.insertedBy = some txn
      calls := w.calls.map (abortCall txn)
      endedTxns := txn :: w.endedTxns } (abortCall txn r) := by
  unfold abortCall
  split
  · refine ⟨?_, rfl⟩
    intro answer hpc
    cases hpc
  · rename_i htxn
    refine fine_mono ?_ h
    intro v hv hsees
    exact ⟨v, (Table.mem_delete _ _ _).mpr ⟨hv, not_insertedBy_of_sees htxn hsees⟩, hsees, rfl⟩

theorem fine_statement_iff {w w' : Creations} {i scan : Nat} {r : Creating}
    (hfine : ∀ r ∈ w.calls, Fine w r) (hr : w.calls[i]? = some r)
    (h : w.statement i r scan = some w') :
    (∀ r ∈ w'.calls, Fine w' r) ↔ w.SelectsRaw r scan := by
  obtain ⟨pc, hadvances, hthis⟩ := statement_advances h
  have hthis := hthis (hfine r (List.mem_of_getElem? hr))
  constructor
  · intro hall
    exact hthis.mp (hall _ ((mem_calls_of_advances hadvances hr _).mpr (.inl rfl)))
  · intro hselects r' hr'
    rcases (mem_calls_of_advances hadvances hr r').mp hr' with rfl | ⟨j, -, hj⟩
    · exact hthis.mpr hselects
    · exact fine_mono (fun v hv hsees => ⟨v, hadvances.kept v hv, hsees, rfl⟩)
        (hfine r' (List.mem_of_getElem? hj))

theorem settles_next_iff {w w' : Creations} {e : CreationEvent} (hinv : Inv w)
    (hsettles : Settles w) (h : w.next e = some w') : Settles w' ↔ w.FindsRaw e := by
  have hfine := (settles_iff hinv).mp hsettles
  rw [settles_iff (inv_next hinv h)]
  rcases next_cases h with ⟨txn, call, rfl, -, -, rfl⟩ | ⟨i, scan, r, rfl, hr, hstatement⟩ |
    ⟨txn, rfl, -, -, rfl⟩ | ⟨txn, rfl, -, rfl⟩
  · refine iff_of_true ?_ trivial
    intro r hr
    rcases List.mem_append.mp hr with hr | hr
    · exact hfine r hr
    · rw [List.mem_singleton.mp hr]
      exact fine_start _ txn call
  · rw [fine_statement_iff hfine hr hstatement]
    constructor
    · intro hselects r' hr'
      rw [hr] at hr'
      cases hr'
      exact hselects
    · intro hselects
      exact hselects r hr
  · exact iff_of_true (fun r hr => fine_commit (hfine r hr) txn) trivial
  · refine iff_of_true ?_ trivial
    intro r hr
    obtain ⟨old, hold, rfl⟩ := List.mem_map.mp hr
    exact fine_rollback (hfine old hold) txn

theorem settles_step_iff (w : Creations) (e : CreationEvent) (hinv : Inv w)
    (hsettles : Settles w) : Settles (w.step e) ↔ w.FindsRaw e := by
  unfold step
  cases h : w.next e with
  | some w' => exact settles_next_iff hinv hsettles h
  | none =>
    refine iff_of_true hsettles ?_
    cases e with
    | statement i scan =>
      intro r hr newId round hpc
      simp only [next, hr, statement, hpc] at h
      split at h
      · cases h
      · cases h
    | call txn call => trivial
    | commit txn => trivial
    | rollback txn => trivial

/-- All calls of a run settle, each in the first round of its loop and with its raw metric,
exactly when every `SELECT` of a loop meets the raw metric's row first. -/
theorem creations_settle_iff (c : Catalog) (events : List CreationEvent) :
    AllStates step Settles (ofCatalog c) events ↔ AllSteps step FindsRaw (ofCatalog c) events := by
  refine allStates_iff_allSteps Inv inv_step settles_step_iff (inv_ofCatalog c) ?_ events
  exact (settles_iff (inv_ofCatalog c)).mpr fun r hr => by simp [ofCatalog] at hr

/-! ## Runs without clashes -/

/-- The row of the raw metric is there for the call. -/
def SeesRaw (w : Creations) (r : Creating) : Prop :=
  ∃ v ∈ w.metric.rows, sees r.txn v = true ∧ v.metric.metricName = r.call.metricName ∧
    v.metric.tableSchema = promData

/-- No view has the name of a call, and no other metric the table name a call inserts. -/
def NoClash (w : Creations) : Prop :=
  ∀ r ∈ w.calls, ∀ v ∈ w.metric.rows,
    (v.metric.metricName = r.call.metricName → v.metric.tableSchema = promData) ∧
    ∀ newId round, r.pc = .insert newId round → v.metric.tableSchema = promData →
      v.metric.tableName = pgNameUnique r.call.metricName (toString newId) →
        v.metric.metricName = r.call.metricName

/-- The id that a call has taken from the sequence and that is in no row yet. -/
def pendingId : CreationPc → Option Nat
  | .insert newId _ => some newId
  | .select newId _ => some newId
  | _ => none

/-- An id that is taken is of one call and of no row, and a call that selects has been in conflict
with the row of its metric. -/
structure Prepared (w : Creations) : Prop where
  rowId : ∀ v ∈ w.metric.rows, v.metric.id ≤ w.metricIdSeq
  pending : ∀ (i : Nat) (r : Creating) (newId : Nat), w.calls[i]? = some r →
    pendingId r.pc = some newId →
      newId ≤ w.metricIdSeq ∧ (∀ v ∈ w.metric.rows, v.metric.id ≠ newId) ∧
        ∀ (j : Nat) (r' : Creating), w.calls[j]? = some r' → pendingId r'.pc = some newId → j = i
  seesRaw : ∀ r ∈ w.calls, ∀ newId round, r.pc = .select newId round → w.SeesRaw r

theorem SeesRaw.selectsRaw {w : Creations} {r : Creating} (h : w.SeesRaw r)
    (hnoView : ∀ v ∈ w.metric.rows, v.metric.metricName = r.call.metricName →
      v.metric.tableSchema = promData) (scan : Nat) : w.SelectsRaw r scan := by
  intro newId round _
  obtain ⟨v, hv, hsees, hname, -⟩ := h
  have hmem : v.metric ∈ (w.visible r.txn).filter fun m => m.metricName = r.call.metricName :=
    List.mem_filter.mpr ⟨mem_visible.mpr ⟨v, hv, hsees, rfl⟩, decide_eq_true hname⟩
  have hlt := Nat.mod_lt scan (List.length_pos_of_mem hmem)
  have hselect : w.selectByName r.txn r.call.metricName scan = some _ :=
    List.getElem?_eq_getElem hlt
  obtain ⟨hname', v', hv', -, hmetric⟩ := mem_of_selectByName hselect
  refine ⟨_, hselect, ?_⟩
  rw [← hmetric] at hname' ⊢
  exact hnoView v' hv' hname'

/-- An insert that is in conflict, but not with the row of a view or of another metric, leaves a
row that its `SELECT` sees. -/
theorem seesRaw_of_conflict {w : Creations} {i newId round : Nat} {r : Creating}
    (h : Prepared w) (hclash : NoClash w) (hr : w.calls[i]? = some r)
    (hpc : r.pc = .insert newId round)
    (hat : w.conflictsAtOnce r.txn (newRawMetric newId r.call.metricName) = true) :
    w.SeesRaw r := by
  unfold conflictsAtOnce at hat
  split at hat
  · cases hat
  · rename_i conflict hfind
    obtain ⟨v, hv, hconflict⟩ := List.any_eq_true.mp hat
    obtain ⟨hconflict, hsees⟩ := (Bool.and_eq_true _ _).mp hconflict
    have hindex := List.mem_of_find?_eq_some hfind
    have hother := (hclash r (List.mem_of_getElem? hr) v hv).2 newId round hpc
    simp only [uniqueIndexes, List.mem_cons, List.not_mem_nil, or_false] at hindex
    rcases hindex with rfl | rfl | rfl
    · have hnew := (h.pending i r newId hr (by rw [hpc]; rfl)).2.1 v hv
      exact absurd (of_decide_eq_true hconflict) hnew
    · simp only [Bool.and_eq_true, decide_eq_true_eq] at hconflict
      exact ⟨v, hv, hsees, hconflict.1, hconflict.2⟩
    · simp only [Bool.and_eq_true, decide_eq_true_eq] at hconflict
      exact ⟨v, hv, hsees, hother hconflict.1 hconflict.2, hconflict.1⟩

/-- No id is taken, and rows that calls see stay. -/
theorem Prepared.of_kept {w w' : Creations} (h : Prepared w)
    (hseq : w'.metricIdSeq = w.metricIdSeq)
    (hrows : ∀ v' ∈ w'.metric.rows, ∃ v ∈ w.metric.rows, v.metric = v'.metric)
    (hcalls : ∀ (j : Nat) (r' : Creating) (newId : Nat), w'.calls[j]? = some r' →
      pendingId r'.pc = some newId → ∃ r, w.calls[j]? = some r ∧ pendingId r.pc = some newId)
    (hselect : ∀ r' ∈ w'.calls, ∀ newId round, r'.pc = .select newId round → w'.SeesRaw r') :
    Prepared w' where
  rowId v' hv' := by
    obtain ⟨v, hv, hmetric⟩ := hrows v' hv'
    rw [← hmetric, hseq]
    exact h.rowId v hv
  pending j r' newId hj hnew := by
    obtain ⟨r, hr, hpending⟩ := hcalls j r' newId hj hnew
    obtain ⟨hle, hfree, hown⟩ := h.pending j r newId hr hpending
    refine ⟨hseq ▸ hle, fun v' hv' => ?_, fun k r'' hk hk' => ?_⟩
    · obtain ⟨v, hv, hmetric⟩ := hrows v' hv'
      rw [← hmetric]
      exact hfree v hv
    · obtain ⟨r₂, hr₂, hpending₂⟩ := hcalls k r'' newId hk hk'
      exact hown k r₂ hr₂ hpending₂
  seesRaw := hselect

theorem Prepared.goto {w : Creations} {i : Nat} {r : Creating} {pc : CreationPc}
    (h : Prepared w) (hr : w.calls[i]? = some r)
    (hpending : ∀ newId, pendingId pc = some newId → pendingId r.pc = some newId)
    (hselect : ∀ newId round, pc = .select newId round → w.SeesRaw r) :
    Prepared (w.goto i r pc) := by
  have hi : i < w.calls.length := (List.getElem?_eq_some_iff.mp hr).1
  refine h.of_kept rfl (fun v hv => ⟨v, hv, rfl⟩) ?_ ?_
  · intro j r' newId hj hnew
    by_cases hji : j = i
    · subst hji
      cases (List.getElem?_set_self hi).symm.trans hj
      exact ⟨r, hr, hpending newId hnew⟩
    · exact ⟨r', (List.getElem?_set_ne (Ne.symm hji)).symm.trans hj, hnew⟩
  · intro r' hr' newId round hpc
    rcases List.mem_or_eq_of_mem_set hr' with hold | rfl
    · exact h.seesRaw r' hold newId round hpc
    · exact hselect newId round hpc

theorem prepared_nextval {w : Creations} {i : Nat} {r : Creating} (h : Prepared w)
    (hr : w.calls[i]? = some r) : Prepared
      { w.goto i r (.insert (w.metricIdSeq + 1) 1) with metricIdSeq := w.metricIdSeq + 1 } := by
  have hi : i < w.calls.length := (List.getElem?_eq_some_iff.mp hr).1
  have hcalls : ∀ (j : Nat) (r' : Creating) (newId : Nat),
      (w.goto i r (.insert (w.metricIdSeq + 1) 1)).calls[j]? = some r' →
        pendingId r'.pc = some newId → (j = i ∧ newId = w.metricIdSeq + 1) ∨
          (j ≠ i ∧ w.calls[j]? = some r') := by
    intro j r' newId hj hnew
    by_cases hji : j = i
    · subst hji
      cases (List.getElem?_set_self hi).symm.trans hj
      exact .inl ⟨rfl, (Option.some.inj hnew).symm⟩
    · exact .inr ⟨hji, (List.getElem?_set_ne (Ne.symm hji)).symm.trans hj⟩
  refine ⟨fun v hv => Nat.le_succ_of_le (h.rowId v hv), ?_, ?_⟩
  · intro j r' newId hj hnew
    rcases hcalls j r' newId hj hnew with ⟨rfl, rfl⟩ | ⟨hji, hold⟩
    · refine ⟨Nat.le_refl _, fun v hv heq => ?_, fun k r'' hk hk' => ?_⟩
      · have hle := h.rowId v hv
        omega
      · rcases hcalls k r'' _ hk hk' with ⟨rfl, -⟩ | ⟨-, hold⟩
        · rfl
        · have hle := (h.pending k r'' _ hold hk').1
          omega
    · obtain ⟨hle, hfree, hown⟩ := h.pending j r' newId hold hnew
      refine ⟨Nat.le_succ_of_le hle, hfree, fun k r'' hk hk' => ?_⟩
      rcases hcalls k r'' newId hk hk' with ⟨-, rfl⟩ | ⟨-, hold'⟩
      · omega
      · exact hown k r'' hold' hk'
  · intro r' hr' newId round hpc
    rcases List.mem_or_eq_of_mem_set hr' with hold | rfl
    · exact h.seesRaw r' hold newId round hpc
    · cases hpc

theorem prepared_inserted {w : Creations} {i newId round : Nat} {r : Creating}
    {metric : Table Version Version.constraints} {answer : Nat × String} (h : Prepared w)
    (hr : w.calls[i]? = some r) (hpc : r.pc = .insert newId round)
    (hinsert : w.metric.insert ⟨newRawMetric newId r.call.metricName, some r.txn⟩ rfl =
      some metric) :
    Prepared { w.goto i r (.returned answer) with metric := metric } := by
  have hmem := Table.mem_insert hinsert
  have hi : i < w.calls.length := (List.getElem?_eq_some_iff.mp hr).1
  obtain ⟨hle, -, hown⟩ := h.pending i r newId hr (by rw [hpc]; rfl)
  have hcalls : ∀ (j : Nat) (r' : Creating) (id : Nat),
      (w.goto i r (.returned answer)).calls[j]? = some r' → pendingId r'.pc = some id →
        j ≠ i ∧ w.calls[j]? = some r' := by
    intro j r' id hj hnew
    by_cases hji : j = i
    · subst hji
      cases (List.getElem?_set_self hi).symm.trans hj
      cases hnew
    · exact ⟨hji, (List.getElem?_set_ne (Ne.symm hji)).symm.trans hj⟩
  refine ⟨fun v hv => ?_, ?_, ?_⟩
  · rcases (hmem v).mp hv with hold | rfl
    · exact h.rowId v hold
    · exact hle
  · intro j r' id hj hnew
    obtain ⟨hji, hold⟩ := hcalls j r' id hj hnew
    obtain ⟨hle', hfree, hown'⟩ := h.pending j r' id hold hnew
    refine ⟨hle', fun v hv => ?_, fun k r'' hk hk' => ?_⟩
    · rcases (hmem v).mp hv with hrow | rfl
      · exact hfree v hrow
      · rintro rfl
        exact hji (hown j r' hold hnew)
    · exact hown' k r'' (hcalls k r'' id hk hk').2 hk'
  · intro r' hr' id round' hpc'
    rcases List.mem_or_eq_of_mem_set hr' with hold | rfl
    · obtain ⟨v, hv, hshown⟩ := h.seesRaw r' hold id round' hpc'
      exact ⟨v, (hmem v).mpr (.inl hv), hshown⟩
    · cases hpc'

theorem prepared_statement {w w' : Creations} {i scan : Nat} {r : Creating} (h : Prepared w)
    (hclash : NoClash w) (hr : w.calls[i]? = some r) (hstatement : w.statement i r scan = some w') :
    Prepared w' := by
  cases statement_executes hstatement with
  | found | missing | selected =>
    exact h.goto hr (fun _ hnew => by cases hnew) fun _ _ hpc => by cases hpc
  | nextval => exact prepared_nextval h hr
  | inserted hpc hinsert => exact prepared_inserted h hr hpc hinsert
  | conflict hpc hat =>
    refine h.goto hr (fun newId hnew => ?_) fun _ _ _ => seesRaw_of_conflict h hclash hr hpc hat
    rw [hpc]
    exact hnew
  | again hpc =>
    refine h.goto hr (fun newId hnew => ?_) fun _ _ hpc => by cases hpc
    rw [hpc]
    exact hnew

theorem prepared_next {w w' : Creations} {e : CreationEvent} (h : Prepared w)
    (hclash : NoClash w) (hnext : w.next e = some w') : Prepared w' := by
  rcases next_cases hnext with ⟨txn, call, -, -, -, rfl⟩ | ⟨i, scan, r, -, hr, hstatement⟩ |
    ⟨txn, -, -, -, rfl⟩ | ⟨txn, -, -, rfl⟩
  · have hstart : pendingId call.start = none := by cases call <;> rfl
    refine h.of_kept rfl (fun v hv => ⟨v, hv, rfl⟩) ?_ ?_
    · intro j r' newId hj hnew
      change (w.calls ++ [_])[j]? = _ at hj
      rw [List.getElem?_append] at hj
      split at hj
      · exact ⟨r', hj, hnew⟩
      · rw [List.mem_singleton.mp (List.mem_of_getElem? hj)] at hnew
        cases hstart.symm.trans hnew
    · intro r' hr' newId round hpc
      rcases List.mem_append.mp hr' with hold | hnew
      · exact h.seesRaw r' hold newId round hpc
      · rw [List.mem_singleton.mp hnew] at hpc
        change call.start = _ at hpc
        rw [hpc] at hstart
        cases hstart
  · exact prepared_statement h hclash hr hstatement
  · refine h.of_kept rfl (fun v' hv' => ?_) (fun j r' newId hj hnew => ⟨r', hj, hnew⟩) ?_
    · obtain ⟨v, hv, rfl⟩ := mem_commitRows.mp hv'
      exact ⟨v, hv, rfl⟩
    · intro r' hr' newId round hpc
      obtain ⟨v, hv, hsees, hshown⟩ := h.seesRaw r' hr' newId round hpc
      exact ⟨commitRow txn v, mem_commitRows.mpr ⟨v, hv, rfl⟩, sees_commitRow hsees, hshown⟩
  · refine h.of_kept rfl (fun v hv => ⟨v, ((Table.mem_delete _ _ _).mp hv).1, rfl⟩) ?_ ?_
    · intro j r' newId hj hnew
      change (w.calls.map (abortCall txn))[j]? = _ at hj
      rw [List.getElem?_map] at hj
      obtain ⟨r, hr, rfl⟩ := Option.map_eq_some_iff.mp hj
      by_cases htxn : r.txn = txn
      · rw [abortCall, if_pos htxn] at hnew
        cases hnew
      · rw [abortCall, if_neg htxn] at hnew
        exact ⟨r, hr, hnew⟩
    · intro r' hr' newId round hpc
      obtain ⟨r, hr, rfl⟩ := List.mem_map.mp hr'
      by_cases htxn : r.txn = txn
      · rw [abortCall, if_pos htxn] at hpc
        cases hpc
      · rw [abortCall, if_neg htxn] at hpc ⊢
        obtain ⟨v, hv, hsees, hshown⟩ := h.seesRaw r hr newId round hpc
        exact ⟨v, (Table.mem_delete _ _ _).mpr ⟨hv, not_insertedBy_of_sees htxn hsees⟩, hsees,
          hshown⟩

theorem prepared_ofCatalog {c : Catalog} (hnumbered : ∀ m ∈ c.metric.rows, m.id ≤ c.metricIdSeq) :
    Prepared (ofCatalog c) where
  rowId v hv := by
    obtain ⟨m, hm, rfl⟩ := List.mem_map.mp hv
    exact hnumbered m hm
  pending i r newId hr := by simp [ofCatalog] at hr
  seesRaw r hr := by simp [ofCatalog] at hr

/-- In a run in which no view has the name of a call and no other metric its table name, every
`SELECT` of a loop meets the raw metric's row first. -/
theorem findsRaw_of_noClash {c : Catalog} (hnumbered : ∀ m ∈ c.metric.rows, m.id ≤ c.metricIdSeq)
    {events : List CreationEvent} (h : AllStates step NoClash (ofCatalog c) events) :
    AllSteps step FindsRaw (ofCatalog c) events := by
  refine @AllStates.allSteps _ _ step Prepared _ _ (fun w e hprepared hclash => ?_)
    (fun w e hprepared hclash => ?_) _ _ h (prepared_ofCatalog hnumbered)
  · unfold step
    cases hnext : w.next e with
    | none => exact hprepared
    | some w' => exact prepared_next hprepared hclash hnext
  · cases e with
    | statement i scan =>
      intro r hr newId round hpc
      have hmem := List.mem_of_getElem? hr
      exact (hprepared.seesRaw r hmem newId round hpc).selectsRaw
        (fun v hv => (hclash r hmem v hv).1) scan newId round hpc
    | call | commit | rollback => trivial

/-! ## Calls that do not settle -/

/-- A metric and a registered view with another name. -/
def registerCpu : Sql Unit := do
  let _ ← getOrCreateMetricTableName "node_cpu"
  createUserView ⟨"agg", "cpu", [(promData, "node_cpu")], [("time", "timestamp with time zone"),
    ("series_id", "bigint"), ("value", "double precision")], false⟩ []
  let _ ← registerMetricView "agg" "cpu" false

def lettersAndOne (last : Char) : String := String.ofList (List.replicate 31 'é' ++ [last])

def catalogAfter (x : Sql Unit) : Catalog :=
  match x.run (init (fun a b => decide (a ≤ b)) true 0) with
  | .ok (_, c) => c
  | .error _ => init (fun a b => decide (a ≤ b)) true 0

def registeredCpu : Catalog := catalogAfter registerCpu

/-- Two calls that both find no metric; the second one inserts when the first has committed. -/
def bothCreateCpu : List CreationEvent := [
  .call 1 (.getOrCreateMetricTableName "cpu"), .call 2 (.getOrCreateMetricTableName "cpu"),
  .statement 0 0, .statement 1 0, .statement 0 0, .statement 1 0, .statement 0 0, .commit 1,
  .statement 1 0, .statement 1 0]

def longName : Catalog := catalogAfter do
  let _ ← getOrCreateMetricTableName (lettersAndOne 'é')

def createOtherLongName : List CreationEvent := [
  .call 1 (.getOrCreateMetricTableName (lettersAndOne 'è')), .statement 0 0, .statement 0 0]

/-- One caller gets the view. And a call for a name whose table name is taken never ends. -/
theorem creations_do_not_settle :
    (bothCreateCpu.foldl step (ofCatalog registeredCpu)).calls.map (·.pc) =
        [.returned (3, "cpu"), .returned (2, "cpu")] ∧
      ¬ Settles (bothCreateCpu.foldl step (ofCatalog registeredCpu)) ∧
      ∀ n, ((fun w => (step w (.statement 0 0)).step (.statement 0 0))^[n]
        (createOtherLongName.foldl step (ofCatalog longName))).calls.map (·.pc) =
          [.insert 2 (n + 1)] := by
  have hpcs : (bothCreateCpu.foldl step (ofCatalog registeredCpu)).calls =
      [⟨1, .getOrCreateMetricTableName "cpu", .returned (3, "cpu")⟩,
        ⟨2, .getOrCreateMetricTableName "cpu", .returned (2, "cpu")⟩] := by decide +kernel
  refine ⟨by rw [hpcs]; rfl, ?_, ?_⟩
  · intro hsettles
    have hsame := hsettles.sameAnswer ⟨1, .getOrCreateMetricTableName "cpu", .returned (3, "cpu")⟩
      (by rw [hpcs]; decide) ⟨2, .getOrCreateMetricTableName "cpu", .returned (2, "cpu")⟩
      (by rw [hpcs]; decide) rfl _ _ rfl rfl
    cases hsame
  · intro n
    have hcalls : (createOtherLongName.foldl step (ofCatalog longName)).calls =
        [⟨1, .getOrCreateMetricTableName (lettersAndOne 'è'), .insert 2 1⟩] := by decide +kernel
    have hforever := @goes_round_forever (createOtherLongName.foldl step (ofCatalog longName)) 0 2
      ⟨1, .getOrCreateMetricTableName (lettersAndOne 'è'), .insert 2 1⟩ 0 (by decide +kernel)
      (by decide +kernel) (by decide +kernel) (by rw [hcalls]; decide) 1 n
    rw [goto_self (by rw [hcalls]; rfl)] at hforever
    rw [hforever, goto, hcalls]
    simp [Nat.add_comm]

end Promscale.Catalog.Creations
