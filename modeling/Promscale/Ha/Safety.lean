import Promscale.Ha.Interleaving

/-!
# Leases under interleaving

A call writes the row at most once from what is committed, and holds it until then, so a
commit is always one extension by the leader itself or one takeover of an expired lease.
A call of `update_lease` that comes to an end has either seen its writer's lease reach
past `max_time` or made it do so.
-/
namespace Promscale.Ha

open Promscale.Lib

/-- The range of times is one, and `0 <= lease_refresh < lease_timeout`. -/
def Call.Sound : Call → Prop
  | .updateLease _ minTime maxTime leaseTimeout leaseRefresh =>
    minTime ≤ maxTime ∧ 0 ≤ leaseRefresh ∧ leaseRefresh < leaseTimeout
  | .tryChangeLeader _ _ leaseTimeout => 0 < leaseTimeout

def Event.Sound : Event → Prop
  | .call _ c => c.Sound
  | _ => True

/-- An event that happens, its call with sensible times and settings. -/
def Step (w : World) (e : Event) (w' : World) : Prop :=
  e.Sound ∧ w.next e = some w'

/-- The call has a lease row in sight. -/
def Pc.seen : Pc → Bool
  | .findAgain | .extend | .recheck | .selectState | .done _ => true
  | _ => false

/-- The call will raise no more on account of the leader. -/
def Pc.decided : Pc → Bool
  | .selectState | .done _ | .returned _ => true
  | _ => false

def Pc.over : Pc → Bool
  | .returned _ | .raised _ => true
  | _ => false

/-- The writer holds a lease that lasts past `maxTime`. -/
def Cluster.Held (db : Cluster) (writer : String) (maxTime : Int) : Prop :=
  ∃ lease, db.lease = some lease ∧ lease.leaderName = writer ∧ maxTime < lease.leaseUntil

/-- What a call can make of the lease row. -/
inductive Written : Call → Option Lease → Lease → Prop
  | first (writer : String) (minTime maxTime leaseTimeout leaseRefresh : Int) :
      Written (.updateLease writer minTime maxTime leaseTimeout leaseRefresh) none
        ⟨writer, minTime, maxTime + leaseTimeout⟩
  | extended (lease : Lease) (minTime maxTime leaseTimeout leaseRefresh : Int)
      (hdue : lease.leaseUntil + leaseRefresh < maxTime + leaseTimeout) :
      Written (.updateLease lease.leaderName minTime maxTime leaseTimeout leaseRefresh)
        (some lease) { lease with leaseUntil := maxTime + leaseTimeout }
  | tookOver (lease : Lease) (newLeader : String) (maxTime leaseTimeout : Int)
      (hexpired : lease.leaseUntil ≤ maxTime) :
      Written (.tryChangeLeader newLeader maxTime leaseTimeout) (some lease)
        ⟨newLeader, lease.leaseUntil, maxTime + leaseTimeout⟩

/-- What a call of `update_lease` has seen when it goes on from `pc` to `pc'`. -/
def Call.Looked (call : Call) (db : Cluster) (pc pc' : Pc) : Prop :=
  ∀ writer minTime maxTime leaseTimeout leaseRefresh,
    call = .updateLease writer minTime maxTime leaseTimeout leaseRefresh →
      (pc'.seen → pc.seen ∨ db.lease.isSome) ∧
      (pc'.decided → pc.decided ∨ (pc'.over = false ∧ (leaseRefresh < leaseTimeout →
        db.lease.isSome → db.Held writer maxTime)))

/-- Everything an event can do to the world. -/
inductive Effect (w : World) : Event → World → Prop
  | called (id : Nat) (call : Call) (hnew : w.calls id = none) :
      Effect w (.call id call) (w.goto id call call.start)
  | moved (e : Event) (id : Nat) (call : Call) (pc pc' : Pc) (hcall : w.calls id = some ⟨call, pc⟩)
      (hover : pc'.over → w.ownsPending id = false) (hlooked : call.Looked (w.view id) pc pc') :
      Effect w e (w.goto id call pc')
  | wrote (e : Event) (id : Nat) (call : Call) (pc pc' : Pc) (db : Cluster) (lease : Lease)
      (hcall : w.calls id = some ⟨call, pc⟩) (hlive : pc'.over = false)
      (hunlocked : w.unlocked id) (hlease : db.lease = some lease)
      (hwritten : Written call (w.view id).lease lease) :
      Effect w e { w.goto id call pc' with pending := some (id, db) }
  | raised (e : Event) (id : Nat) (call : Call) (pc : Pc) (err : PgError)
      (hcall : w.calls id = some ⟨call, pc⟩) : Effect w e (w.raise id call err)
  | committed (id : Nat) (db : Cluster) (hpending : w.pending = some (id, db)) :
      Effect w (.commit id) { w with committed := db, pending := none }

theorem held_of_not_refreshDue {db : Cluster} {writer : String}
    {maxTime leaseTimeout leaseRefresh : Int} (hleader : leaderDiffers db.lease writer = false)
    (hdue : refreshDue db.lease (maxTime + leaseTimeout) leaseRefresh = false)
    (hrefresh : leaseRefresh < leaseTimeout) (hsome : db.lease.isSome) :
    db.Held writer maxTime := by
  obtain ⟨lease, hlease⟩ := Option.isSome_iff_exists.mp hsome
  rw [hlease] at hleader hdue
  simp only [leaderDiffers, refreshDue, decide_eq_false_iff_not, not_not,
    gt_iff_lt] at hleader hdue
  exact ⟨lease, hlease, hleader, by omega⟩

theorem held_of_not_leaseLost {db : Cluster} {writer : String} {maxTime : Int}
    (hlost : leaseLost db.lease writer maxTime = false) (hsome : db.lease.isSome) :
    db.Held writer maxTime := by
  obtain ⟨lease, hlease⟩ := Option.isSome_iff_exists.mp hsome
  rw [hlease] at hlost
  simp only [leaseLost, Bool.or_eq_false_iff, decide_eq_false_iff_not, not_not] at hlost
  exact ⟨lease, hlease, hlost.1, Int.not_le.mp hlost.2⟩

/-- A look at the leader, from a point where the lease may not have been seen yet. -/
private theorem checkLeader_effect {w : World} {id : Nat} {writer : String} {pc : Pc}
    {minTime maxTime leaseTimeout leaseRefresh : Int} (e : Event)
    (hcall : w.calls id = some
      ⟨.updateLease writer minTime maxTime leaseTimeout leaseRefresh, pc⟩)
    (hseen : pc.seen ∨ (w.view id).lease.isSome) :
    Effect w e (w.checkLeader id (.updateLease writer minTime maxTime leaseTimeout leaseRefresh)
      writer (maxTime + leaseTimeout) leaseRefresh) := by
  unfold World.checkLeader
  dsimp only
  split
  · exact .raised e id _ pc _ hcall
  · rename_i hleader
    split
    · refine .moved e id _ pc .extend hcall (by simp [Pc.over]) ?_
      exact fun _ _ _ _ _ _ => ⟨fun _ => hseen, by simp [Pc.decided]⟩
    · rename_i hdue
      refine .moved e id _ pc .selectState hcall (by simp [Pc.over]) ?_
      intro _ _ _ _ _ heq
      cases heq
      refine ⟨fun _ => hseen, fun _ => .inr ⟨rfl, fun hrefresh hsome => ?_⟩⟩
      exact held_of_not_refreshDue (by simpa using hleader) (by simpa using hdue) hrefresh hsome

/-- A write statement whose write is `Written`. -/
private theorem write_effect {w w' : World} {id : Nat} {call : Call} {pc found notFound : Pc}
    {result : Except PgError (Option Cluster)} (e : Event)
    (hcall : w.calls id = some ⟨call, pc⟩) (h : w.write id call result found notFound = some w')
    (hlive : found.over = false) (hlive' : notFound.over = false)
    (hwritten : ∀ db, result = .ok (some db) →
      ∃ lease, db.lease = some lease ∧ Written call (w.view id).lease lease)
    (hlooked : result = .ok none → call.Looked (w.view id) pc notFound) : Effect w e w' := by
  unfold World.write at h
  split at h
  · cases h
    exact .moved e id call pc notFound hcall (by simp [hlive']) (hlooked rfl)
  · rename_i db
    split at h
    · rename_i hunlocked
      cases h
      obtain ⟨lease, hlease, hw⟩ := hwritten db rfl
      exact .wrote e id call pc found db lease hcall hlive hunlocked hlease hw
    · cases h
  · split at h
    · cases h
      exact .raised e id call pc _ hcall
    · cases h

/-- The first insert writes the first lease, when the statement before it has found none. -/
private theorem insertFirst_written {db db' : Cluster} {writer : String}
    {minTime maxTime leaseTimeout : Int} (leaseRefresh : Int)
    (h : World.insertFirst writer minTime maxTime leaseTimeout db = .ok (some db')) :
    ∃ lease, db'.lease = some lease ∧
      Written (.updateLease writer minTime maxTime leaseTimeout leaseRefresh) db.lease lease := by
  unfold World.insertFirst at h
  split at h
  · cases h
  · rename_i hnone
    have hnone : db.lease = none := by simpa using hnone
    cases hinsert : insertLease writer minTime maxTime leaseTimeout db with
    | error e =>
      rw [hinsert] at h
      cases h
    | ok after =>
      rw [hinsert] at h
      cases h
      rcases insertLease_effect hinsert with ⟨hsome, _⟩ | ⟨_, hwrite⟩
      · simp [hnone] at hsome
      · refine ⟨_, writeLease_lease hwrite, ?_⟩
        rw [hnone]
        exact .first ..

private theorem insertFirst_found {db : Cluster} {writer : String}
    {minTime maxTime leaseTimeout : Int}
    (h : World.insertFirst writer minTime maxTime leaseTimeout db = .ok none) :
    db.lease.isSome := by
  unfold World.insertFirst at h
  split at h
  · assumption
  · cases hinsert : insertLease writer minTime maxTime leaseTimeout db with
    | error e =>
      rw [hinsert] at h
      cases h
    | ok after =>
      rw [hinsert] at h
      cases h

/-- Inversion lemma: a call's next statement does one of the effects. -/
theorem statement_effect {w w' : World} {id : Nat} {running : Running}
    (hcall : w.calls id = some running) (h : w.statement id running = some w') :
    Effect w (.statement id) w' := by
  obtain ⟨call, pc⟩ := running
  unfold World.statement at h
  dsimp only at h
  split at h
  · rename_i writer minTime maxTime leaseTimeout leaseRefresh
    split at h
    · cases h
      refine .moved _ id _ _ .insertFirst hcall (by simp [Pc.over]) ?_
      exact fun _ _ _ _ _ _ => ⟨by simp [Pc.seen], by simp [Pc.decided]⟩
    · rename_i hsome
      cases h
      exact checkLeader_effect _ hcall (.inr (by simpa [Option.isSome_iff_ne_none] using hsome))
  · rename_i writer minTime maxTime leaseTimeout leaseRefresh
    refine write_effect _ hcall h rfl rfl (fun db => insertFirst_written leaseRefresh) ?_
    intro hresult _ _ _ _ _ _
    exact ⟨fun _ => .inr (insertFirst_found hresult), by simp [Pc.decided]⟩
  · rename_i writer minTime maxTime leaseTimeout leaseRefresh
    cases h
    exact checkLeader_effect _ hcall (.inl rfl)
  · rename_i writer minTime maxTime leaseTimeout leaseRefresh
    refine write_effect _ hcall h rfl rfl ?_ ?_
    · intro db hresult
      obtain ⟨lease, hlease, rfl, hdue, rfl⟩ := extendLease_effect hresult
      refine ⟨_, rfl, ?_⟩
      rw [hlease]
      exact .extended lease _ _ _ _ hdue
    · exact fun _ _ _ _ _ _ _ => ⟨fun _ => .inl rfl, by simp [Pc.decided]⟩
  · rename_i writer minTime maxTime leaseTimeout leaseRefresh
    split at h
    · cases h
      exact .raised _ id _ _ _ hcall
    · rename_i hlost
      cases h
      refine .moved _ id _ _ .selectState hcall (by simp [Pc.over]) ?_
      intro _ _ _ _ _ heq
      cases heq
      refine ⟨fun _ => .inl rfl, fun _ => .inr ⟨rfl, fun _ hsome => ?_⟩⟩
      exact held_of_not_leaseLost (by simpa using hlost) hsome
  · rename_i newLeader maxTime leaseTimeout
    refine write_effect _ hcall h rfl rfl ?_ (fun _ _ _ _ _ _ heq => by cases heq)
    intro db hresult
    obtain ⟨lease, hlease, hexpired, hwrite⟩ := takeOver_effect hresult
    refine ⟨_, writeLease_lease hwrite, ?_⟩
    rw [hlease]
    exact .tookOver lease _ _ _ hexpired
  · split at h
    · cases h
      refine .moved _ id _ _ (.done _) hcall (by simp [Pc.over]) ?_
      exact fun _ _ _ _ _ _ => ⟨fun _ => .inl rfl, fun _ => .inl rfl⟩
    · cases h
      exact .raised _ id _ _ _ hcall
  · cases h

theorem next_effect {w w' : World} {e : Event} (h : w.next e = some w') : Effect w e w' := by
  cases e with
  | call id c =>
    unfold World.next at h
    dsimp only at h
    split at h
    · cases h
      exact .called id c (by assumption)
    · cases h
  | statement id =>
    unfold World.next at h
    dsimp only at h
    split at h
    · cases h
    · exact statement_effect (by assumption) h
  | commit id =>
    unfold World.next at h
    dsimp only at h
    split at h
    · cases h
    · split at h
      · rename_i hpending howner
        cases h
        subst howner
        exact .committed _ _ hpending
      · cases h
  | «return» id =>
    unfold World.next at h
    dsimp only at h
    split at h
    · split at h
      · cases h
      · rename_i call leaseState hcall hown
        cases h
        refine .moved _ id call _ (.returned leaseState) hcall (fun _ => by simpa using hown) ?_
        exact fun _ _ _ _ _ _ => ⟨by simp [Pc.seen], fun _ => .inl rfl⟩
    · cases h
  | abort id =>
    unfold World.next at h
    dsimp only at h
    split at h
    · cases h
    · cases h
    · cases h
      exact .raised _ id _ _ _ (by assumption)

/-! ## Frames -/

@[simp] theorem World.goto_calls_self (w : World) (id : Nat) (call : Call) (pc : Pc) :
    (w.goto id call pc).calls id = some ⟨call, pc⟩ := by
  simp [goto]

theorem World.goto_calls_of_ne (w : World) {id other : Nat} (call : Call) (pc : Pc)
    (h : other ≠ id) : (w.goto id call pc).calls other = w.calls other := by
  simp [goto, Function.update_of_ne h]

@[simp] theorem World.goto_view (w : World) (id other : Nat) (call : Call) (pc : Pc) :
    (w.goto id call pc).view other = w.view other := rfl

theorem World.view_of_pending {w : World} {id : Nat} {db : Cluster}
    (h : w.pending = some (id, db)) : w.view id = db := by
  simp [view, h]

/-- Without a write of its own a call sees what is committed. -/
theorem World.view_of_not_pending {w : World} {id : Nat}
    (h : ∀ db, w.pending ≠ some (id, db)) : w.view id = w.committed := by
  unfold view
  split
  · rfl
  · rename_i owner db hpending
    split
    · rename_i howner
      subst howner
      exact absurd hpending (h db)
    · rfl

theorem World.not_pending_of_unlocked {w : World} {id other : Nat} (h : w.unlocked id)
    (hne : other ≠ id) (db : Cluster) : w.pending ≠ some (other, db) := by
  intro hpending
  simp [unlocked, ownsPending, hpending, hne] at h

/-! ## The invariant -/

/-- At some moment while the call was in progress its writer held, by what was committed,
a lease that lasts past `maxTime`. -/
def HeldDuring (trace : List (Event × World)) (id : Nat) (writer : String) (maxTime : Int) : Prop :=
  ∃ entry ∈ trace, (∃ call pc, entry.2.calls id = some ⟨call, pc⟩ ∧ pc.over = false) ∧
    entry.2.committed.Held writer maxTime

structure Inv (trace : List (Event × World)) (w : World) : Prop where
  proper : ∀ lease, w.committed.lease = some lease → lease.leaseStart < lease.leaseUntil
  pending : ∀ id db, w.pending = some (id, db) → ∃ call pc lease, w.calls id = some ⟨call, pc⟩ ∧
    pc.over = false ∧ db.lease = some lease ∧ Written call w.committed.lease lease
  sound : ∀ id call pc, w.calls id = some ⟨call, pc⟩ → call.Sound
  seen : ∀ id writer minTime maxTime leaseTimeout leaseRefresh pc, w.calls id =
      some ⟨.updateLease writer minTime maxTime leaseTimeout leaseRefresh, pc⟩ →
    pc.seen → (w.view id).lease.isSome
  held : ∀ id writer minTime maxTime leaseTimeout leaseRefresh pc, w.calls id =
      some ⟨.updateLease writer minTime maxTime leaseTimeout leaseRefresh, pc⟩ →
    pc.decided → HeldDuring trace id writer maxTime ∨
      ∃ db, w.pending = some (id, db) ∧ db.Held writer maxTime

theorem HeldDuring.mono {trace : List (Event × World)} {id : Nat} {writer : String}
    {maxTime : Int} (h : HeldDuring trace id writer maxTime) (entry : Event × World) :
    HeldDuring (trace ++ [entry]) id writer maxTime := by
  obtain ⟨entry', hmem, hrest⟩ := h
  exact ⟨entry', List.mem_append_left _ hmem, hrest⟩

/-- A sound write leaves a lease that ends after it starts. -/
theorem Written.proper {call : Call} {old : Option Lease} {lease : Lease}
    (h : Written call old lease) (hsound : call.Sound)
    (hold : ∀ l, old = some l → l.leaseStart < l.leaseUntil) :
    lease.leaseStart < lease.leaseUntil := by
  cases h with
  | first writer minTime maxTime leaseTimeout leaseRefresh =>
    obtain ⟨_, _, _⟩ := hsound
    dsimp only
    omega
  | extended l minTime maxTime leaseTimeout leaseRefresh hdue =>
    obtain ⟨_, _, _⟩ := hsound
    have := hold l rfl
    dsimp only
    omega
  | tookOver l newLeader maxTime leaseTimeout hexpired =>
    have : 0 < leaseTimeout := hsound
    dsimp only
    omega

/-- Where the lease ends that a call writes. -/
def Call.newUntil : Call → Int
  | .updateLease _ _ maxTime leaseTimeout _ => maxTime + leaseTimeout
  | .tryChangeLeader _ maxTime leaseTimeout => maxTime + leaseTimeout

theorem Written.leaseUntil_eq {call : Call} {old : Option Lease} {lease : Lease}
    (h : Written call old lease) : lease.leaseUntil = call.newUntil := by
  cases h <;> rfl

/-- A sound write lengthens the lease. -/
theorem Written.until_lt {call : Call} {old lease : Lease} (h : Written call (some old) lease)
    (hsound : call.Sound) : old.leaseUntil < lease.leaseUntil := by
  cases h with
  | extended _ minTime maxTime leaseTimeout leaseRefresh hdue =>
    obtain ⟨_, hrefresh, _⟩ := hsound
    dsimp only
    omega
  | tookOver _ newLeader maxTime leaseTimeout hexpired =>
    have : 0 < leaseTimeout := hsound
    dsimp only
    omega

/-- Having written once, a call finds nothing more to write. -/
theorem Written.once {call : Call} {old : Option Lease} {lease lease' : Lease}
    (h : Written call old lease) (hsound : call.Sound) : ¬ Written call (some lease) lease' := by
  intro h'
  have hlt := h'.until_lt hsound
  rw [h.leaseUntil_eq, h'.leaseUntil_eq] at hlt
  omega

/-- What `update_lease` writes is a lease of its writer past `max_time`. -/
theorem Written.held {writer : String} {minTime maxTime leaseTimeout leaseRefresh : Int}
    {old : Option Lease} {lease : Lease} {db : Cluster}
    (h : Written (.updateLease writer minTime maxTime leaseTimeout leaseRefresh) old lease)
    (hsound : (Call.updateLease writer minTime maxTime leaseTimeout leaseRefresh).Sound)
    (hlease : db.lease = some lease) : db.Held writer maxTime := by
  obtain ⟨_, hrefresh, htimeout⟩ := hsound
  refine ⟨lease, hlease, ?_⟩
  cases h with
  | first => exact ⟨rfl, by dsimp only; omega⟩
  | extended => exact ⟨rfl, by dsimp only; omega⟩

/-! ## Preservation -/

section Preservation
variable {trace : List (Event × World)} {w : World}

theorem inv_init : Inv [] World.init where
  proper := by simp [World.init]
  pending := by simp [World.init]
  sound := by simp [World.init]
  seen := by simp [World.init]
  held := by simp [World.init]

theorem Inv.called (h : Inv trace w) (id : Nat) (call : Call) (hnew : w.calls id = none)
    (hsound : call.Sound) :
    Inv (trace ++ [(.call id call, w.goto id call call.start)]) (w.goto id call call.start) := by
  have hother : ∀ other running, w.calls other = some running → other ≠ id := by
    rintro other running hrunning rfl
    rw [hnew] at hrunning
    cases hrunning
  have hstart : call.start.seen = false ∧ call.start.decided = false := by cases call <;> exact ⟨rfl, rfl⟩
  refine ⟨h.proper, ?_, ?_, ?_, ?_⟩
  · intro other db hpending
    obtain ⟨c, pc, lease, hcall, hrest⟩ := h.pending other db hpending
    exact ⟨c, pc, lease, by rw [w.goto_calls_of_ne _ _ (hother _ _ hcall)]; exact hcall, hrest⟩
  · intro other c pc hcall
    by_cases heq : other = id
    · subst heq
      rw [World.goto_calls_self] at hcall
      cases hcall
      exact hsound
    · rw [w.goto_calls_of_ne _ _ heq] at hcall
      exact h.sound other c pc hcall
  · intro other _ _ _ _ _ pc hcall hseen
    by_cases heq : other = id
    · subst heq
      rw [World.goto_calls_self] at hcall
      cases hcall
      simp [hstart.1] at hseen
    · rw [w.goto_calls_of_ne _ _ heq] at hcall
      exact h.seen other _ _ _ _ _ pc hcall hseen
  · intro other _ _ _ _ _ pc hcall hdecided
    by_cases heq : other = id
    · subst heq
      rw [World.goto_calls_self] at hcall
      cases hcall
      simp [hstart.2] at hdecided
    · rw [w.goto_calls_of_ne _ _ heq] at hcall
      exact (h.held other _ _ _ _ _ pc hcall hdecided).imp (·.mono _) fun hp => hp

theorem Inv.moved (h : Inv trace w) (e : Event) {id : Nat} {call : Call} {pc pc' : Pc}
    (hcall : w.calls id = some ⟨call, pc⟩) (hover : pc'.over → w.ownsPending id = false)
    (hlooked : call.Looked (w.view id) pc pc') :
    Inv (trace ++ [(e, w.goto id call pc')]) (w.goto id call pc') := by
  refine ⟨h.proper, ?_, ?_, ?_, ?_⟩
  · intro other db hpending
    obtain ⟨c, pc₀, lease, hrunning, hlive, hrest⟩ := h.pending other db hpending
    by_cases heq : other = id
    · subst heq
      rw [hcall] at hrunning
      cases hrunning
      refine ⟨call, pc', lease, w.goto_calls_self _ _ _, ?_, hrest⟩
      have howns : w.ownsPending other = true := by
        have : w.pending = some (other, db) := hpending
        simp [World.ownsPending, this]
      cases hpc' : pc'.over with
      | false => rfl
      | true => rw [hover hpc'] at howns; cases howns
    · exact ⟨c, pc₀, lease, by rw [w.goto_calls_of_ne _ _ heq]; exact hrunning, hlive, hrest⟩
  · intro other c pc₀ hrunning
    by_cases heq : other = id
    · subst heq
      rw [World.goto_calls_self] at hrunning
      cases hrunning
      exact h.sound other call pc hcall
    · rw [w.goto_calls_of_ne _ _ heq] at hrunning
      exact h.sound other c pc₀ hrunning
  · intro other _ _ _ _ _ pc₀ hrunning hseen
    rw [World.goto_view]
    by_cases heq : other = id
    · subst heq
      rw [World.goto_calls_self] at hrunning
      cases hrunning
      rcases (hlooked _ _ _ _ _ rfl).1 hseen with hseen | hsome
      · exact h.seen other _ _ _ _ _ pc hcall hseen
      · exact hsome
    · rw [w.goto_calls_of_ne _ _ heq] at hrunning
      exact h.seen other _ _ _ _ _ pc₀ hrunning hseen
  · intro other writer minTime maxTime leaseTimeout leaseRefresh pc₀ hrunning hdecided
    by_cases heq : other = id
    · subst heq
      rw [World.goto_calls_self] at hrunning
      cases hrunning
      obtain ⟨hseen, hdec⟩ := hlooked _ _ _ _ _ rfl
      rcases hdec hdecided with hdecided | ⟨hlive, hheld⟩
      · exact (h.held other _ _ _ _ _ pc hcall hdecided).imp (·.mono _) fun hp => hp
      · -- the call has just looked: at its own write, or at what is committed
        have hsome : (w.view other).lease.isSome := by
          have hpc' : pc'.seen := by
            cases pc' <;> simp [Pc.decided, Pc.over, Pc.seen] at hdecided hlive ⊢
          rcases hseen hpc' with hseen | hsome
          · exact h.seen other _ _ _ _ _ pc hcall hseen
          · exact hsome
        have hheld := hheld (h.sound other _ _ hcall).2.2 hsome
        by_cases hpending : ∃ db, w.pending = some (other, db)
        · obtain ⟨db, hpending⟩ := hpending
          rw [World.view_of_pending hpending] at hheld
          exact .inr ⟨db, hpending, hheld⟩
        · rw [World.view_of_not_pending (not_exists.mp hpending)] at hheld
          exact .inl ⟨(e, _), List.mem_append_right _ (List.mem_singleton_self _),
            ⟨_, pc', w.goto_calls_self _ _ _, hlive⟩, hheld⟩
    · rw [w.goto_calls_of_ne _ _ heq] at hrunning
      exact (h.held other _ _ _ _ _ pc₀ hrunning hdecided).imp (·.mono _) fun hp => hp

theorem Inv.wrote (h : Inv trace w) (e : Event) {id : Nat} {call : Call} {pc pc' : Pc}
    {db : Cluster} {lease : Lease} (hcall : w.calls id = some ⟨call, pc⟩)
    (hlive : pc'.over = false) (hunlocked : w.unlocked id) (hlease : db.lease = some lease)
    (hwritten : Written call (w.view id).lease lease) :
    Inv (trace ++ [(e, { w.goto id call pc' with pending := some (id, db) })])
      { w.goto id call pc' with pending := some (id, db) } := by
  have hsound := h.sound id call pc hcall
  -- the call has not written before, so it has read what is committed
  have hnone : ∀ db₀, w.pending ≠ some (id, db₀) := by
    intro db₀ hpending
    obtain ⟨c, pc₀, lease₀, hrunning, _, hlease₀, hw⟩ := h.pending id db₀ hpending
    rw [hcall] at hrunning
    cases hrunning
    rw [World.view_of_pending hpending, hlease₀] at hwritten
    exact hw.once hsound hwritten
  rw [World.view_of_not_pending hnone] at hwritten
  have hview : ∀ other, other ≠ id →
      World.view { w.goto id call pc' with pending := some (id, db) } other = w.view other := by
    intro other hne
    rw [World.view_of_not_pending (World.not_pending_of_unlocked hunlocked hne)]
    apply World.view_of_not_pending
    intro db₀ hpending
    cases hpending
    exact hne rfl
  refine ⟨h.proper, ?_, ?_, ?_, ?_⟩
  · intro other db₀ hpending
    cases hpending
    exact ⟨call, pc', lease, w.goto_calls_self _ _ _, hlive, hlease, hwritten⟩
  · intro other c pc₀ hrunning
    by_cases heq : other = id
    · subst heq
      rw [show World.calls _ other = _ from w.goto_calls_self other call pc'] at hrunning
      cases hrunning
      exact hsound
    · rw [show World.calls _ other = _ from w.goto_calls_of_ne call pc' heq] at hrunning
      exact h.sound other c pc₀ hrunning
  · intro other _ _ _ _ _ pc₀ hrunning hseen
    by_cases heq : other = id
    · subst heq
      rw [World.view_of_pending rfl, hlease]
      rfl
    · rw [show World.calls _ other = _ from w.goto_calls_of_ne call pc' heq] at hrunning
      rw [hview other heq]
      exact h.seen other _ _ _ _ _ pc₀ hrunning hseen
  · intro other _ _ _ _ _ pc₀ hrunning hdecided
    by_cases heq : other = id
    · subst heq
      rw [show World.calls _ other = _ from w.goto_calls_self other call pc'] at hrunning
      cases hrunning
      exact .inr ⟨db, rfl, hwritten.held hsound hlease⟩
    · rw [show World.calls _ other = _ from w.goto_calls_of_ne call pc' heq] at hrunning
      rcases h.held other _ _ _ _ _ pc₀ hrunning hdecided with hheld | ⟨db₀, hpending, _⟩
      · exact .inl (hheld.mono _)
      · exact absurd hpending (World.not_pending_of_unlocked hunlocked heq db₀)

/-- Only the call's own write is taken back. -/
theorem World.raise_pending (w : World) (id : Nat) (call : Call) (err : PgError) (other : Nat)
    (db : Cluster) : (w.raise id call err).pending = some (other, db) ↔
      other ≠ id ∧ w.pending = some (other, db) := by
  unfold World.raise World.ownsPending
  cases hp : w.pending with
  | none => simp
  | some p =>
    obtain ⟨owner, db₀⟩ := p
    by_cases howner : owner = id
    · subst howner
      simp
      rintro hother rfl
      exact absurd rfl hother
    · simp [howner]
      rintro rfl
      intro _
      exact howner

theorem World.raise_view_of_ne (w : World) (id : Nat) (call : Call) (err : PgError) {other : Nat}
    (hother : other ≠ id) : (w.raise id call err).view other = w.view other := by
  by_cases hp : ∃ db, w.pending = some (other, db)
  · obtain ⟨db, hp⟩ := hp
    rw [World.view_of_pending hp,
      World.view_of_pending ((w.raise_pending id call err other db).mpr ⟨hother, hp⟩)]
  · rw [World.view_of_not_pending (not_exists.mp hp)]
    apply World.view_of_not_pending
    intro db hp'
    exact hp ⟨db, ((w.raise_pending id call err other db).mp hp').2⟩

theorem Inv.raised (h : Inv trace w) (e : Event) {id : Nat} {call : Call} {pc : Pc}
    (err : PgError) (hcall : w.calls id = some ⟨call, pc⟩) :
    Inv (trace ++ [(e, w.raise id call err)]) (w.raise id call err) := by
  have hself : (w.raise id call err).calls id = some ⟨call, .raised err⟩ :=
    w.goto_calls_self id call _
  have hne : ∀ other, other ≠ id → (w.raise id call err).calls other = w.calls other :=
    fun other => w.goto_calls_of_ne call _
  have hpending := w.raise_pending id call err
  refine ⟨h.proper, ?_, ?_, ?_, ?_⟩
  · intro other db hp
    obtain ⟨hother, hp⟩ := (hpending other db).mp hp
    obtain ⟨c, pc₀, lease, hrunning, hrest⟩ := h.pending other db hp
    exact ⟨c, pc₀, lease, by rw [hne other hother]; exact hrunning, hrest⟩
  · intro other c pc₀ hrunning
    by_cases heq : other = id
    · subst heq
      rw [hself] at hrunning
      cases hrunning
      exact h.sound other call pc hcall
    · rw [hne other heq] at hrunning
      exact h.sound other c pc₀ hrunning
  · intro other _ _ _ _ _ pc₀ hrunning hseen
    by_cases heq : other = id
    · subst heq
      rw [hself] at hrunning
      cases hrunning
      cases hseen
    · rw [hne other heq] at hrunning
      rw [w.raise_view_of_ne id call err heq]
      exact h.seen other _ _ _ _ _ pc₀ hrunning hseen
  · intro other _ _ _ _ _ pc₀ hrunning hdecided
    by_cases heq : other = id
    · subst heq
      rw [hself] at hrunning
      cases hrunning
      cases hdecided
    · rw [hne other heq] at hrunning
      rcases h.held other _ _ _ _ _ pc₀ hrunning hdecided with hheld | ⟨db, hp, hheld⟩
      · exact .inl (hheld.mono _)
      · exact .inr ⟨db, (hpending other db).mpr ⟨heq, hp⟩, hheld⟩

theorem Inv.committed (h : Inv trace w) {id : Nat} {db : Cluster}
    (hpending : w.pending = some (id, db)) :
    Inv (trace ++ [(.commit id, { w with committed := db, pending := none })])
      { w with committed := db, pending := none } := by
  obtain ⟨call, pc, lease, hcall, hlive, hlease, hwritten⟩ := h.pending id db hpending
  have hview : ∀ other, World.view { w with committed := db, pending := none } other = db :=
    fun _ => rfl
  refine ⟨?_, ?_, h.sound, ?_, ?_⟩
  · intro lease' hlease'
    cases hlease.symm.trans hlease'
    exact hwritten.proper (h.sound id call pc hcall) h.proper
  · intro other db₀ hp
    cases hp
  · intro other _ _ _ _ _ pc₀ _ _
    rw [hview, hlease]
    rfl
  · intro other _ _ _ _ _ pc₀ hrunning hdecided
    rcases h.held other _ _ _ _ _ pc₀ hrunning hdecided with hheld | ⟨db₀, hp, hheld⟩
    · exact .inl (hheld.mono _)
    · -- the write of this very call has become what is committed
      rw [hpending] at hp
      cases hp
      exact .inl ⟨(.commit id, _), List.mem_append_right _ (List.mem_singleton_self _),
        ⟨call, pc, hcall, hlive⟩, hheld⟩

/-- Step lemma. -/
theorem Inv.step (h : Inv trace w) {e : Event} {w' : World} (hstep : Step w e w') :
    Inv (trace ++ [(e, w')]) w' := by
  obtain ⟨hsound, hnext⟩ := hstep
  cases next_effect hnext with
  | called id call hnew => exact h.called id call hnew hsound
  | moved _ id call pc pc' hcall hover hlooked => exact h.moved e hcall hover hlooked
  | wrote _ id call pc pc' db lease hcall hlive hunlocked hlease hwritten =>
    exact h.wrote e hcall hlive hunlocked hlease hwritten
  | raised _ id call pc err hcall => exact h.raised e err hcall
  | committed id db hpending => exact h.committed hpending

end Preservation

theorem inv_of_run {trace : List (Event × World)} {w : World} (h : Run Step World.init trace w) :
    Inv trace w :=
  h.invariant inv_init fun _ _ _ _ hinv hstep => hinv.step hstep

/-- What a committed lease can become: it is extended by a call of its own leader, or taken
over where it ended. -/
inductive LeaseStep (call : Call) (lease : Lease) : Lease → Prop
  | extended (minTime maxTime leaseTimeout leaseRefresh : Int)
      (hcall : call = .updateLease lease.leaderName minTime maxTime leaseTimeout leaseRefresh)
      (hlonger : lease.leaseUntil < maxTime + leaseTimeout) :
      LeaseStep call lease { lease with leaseUntil := maxTime + leaseTimeout }
  | tookOver (newLeader : String) (maxTime leaseTimeout : Int)
      (hcall : call = .tryChangeLeader newLeader maxTime leaseTimeout)
      (hexpired : lease.leaseUntil ≤ maxTime) :
      LeaseStep call lease ⟨newLeader, lease.leaseUntil, maxTime + leaseTimeout⟩

theorem Written.leaseStep {call : Call} {lease lease' : Lease}
    (h : Written call (some lease) lease') (hsound : call.Sound) : LeaseStep call lease lease' := by
  have hlt := h.until_lt hsound
  cases h with
  | extended _ minTime maxTime leaseTimeout leaseRefresh hdue =>
    exact .extended minTime maxTime leaseTimeout leaseRefresh rfl hlt
  | tookOver _ newLeader maxTime leaseTimeout hexpired =>
    exact .tookOver newLeader maxTime leaseTimeout rfl hexpired

/-- Two writers race for the first insert; the second finds the row taken. -/
def firstInsertRace : List Event :=
  [.call 0 (.updateLease "a" 0 5 60 10), .statement 0, .statement 0,
    .call 1 (.updateLease "b" 0 5 60 10), .statement 1, .commit 0, .statement 1,
    .statement 0, .statement 0, .return 0, .statement 1]

end Promscale.Ha
