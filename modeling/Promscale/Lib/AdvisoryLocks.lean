import Mathlib.Data.List.Perm.Basic

/-!
# Session-level locks

Sessions take locks by a key, the same one as often as they like, and hold each until they have
released it as often as they took it, or end. The table lists who took what, and cannot list two
sessions for one key.
-/
namespace Promscale.Lib

structure AdvisoryLocks (ι κ : Type) where
  taken : List (ι × κ)
  exclusive : ∀ a ∈ taken, ∀ b ∈ taken, a.2 = b.2 → a.1 = b.1

namespace AdvisoryLocks

variable {ι κ : Type}

def empty : AdvisoryLocks ι κ := ⟨[], by simp⟩

/-- Locks some of which were given back. -/
def shrink (l : AdvisoryLocks ι κ) (taken : List (ι × κ)) (h : taken.Sublist l.taken) :
    AdvisoryLocks ι κ where
  taken := taken
  exclusive a ha b hb := l.exclusive a (h.subset ha) b (h.subset hb)

variable [DecidableEq ι]

/-- The keys under which a session is listed. -/
def keysOf (taken : List (ι × κ)) (i : ι) : List κ :=
  (taken.filter fun e => e.1 = i).map (·.2)

/-- The keys of the locks that a session holds, each as often as it took it. -/
def held (l : AdvisoryLocks ι κ) (i : ι) : List κ := keysOf l.taken i

theorem mem_held {l : AdvisoryLocks ι κ} {i : ι} {k : κ} : k ∈ l.held i ↔ (i, k) ∈ l.taken := by
  simp [held, keysOf]

/-- Two sessions never hold one lock. -/
theorem eq_of_mem_held {l : AdvisoryLocks ι κ} {i j : ι} {k : κ} (hi : k ∈ l.held i)
    (hj : k ∈ l.held j) : i = j :=
  l.exclusive (i, k) (mem_held.mp hi) (j, k) (mem_held.mp hj) rfl

@[simp] theorem held_empty (i : ι) : (empty : AdvisoryLocks ι κ).held i = [] := rfl

/-- A session that ends releases all its locks. -/
def endSession (l : AdvisoryLocks ι κ) (i : ι) : AdvisoryLocks ι κ :=
  l.shrink (l.taken.filter fun e => e.1 ≠ i) List.filter_sublist

theorem endSession_held (l : AdvisoryLocks ι κ) (i : ι) :
    (l.endSession i).held i = [] ∧ ∀ j, j ≠ i → (l.endSession i).held j = l.held j := by
  unfold endSession shrink held keysOf
  constructor
  · simp
  · intro j hne
    rw [List.filter_filter]
    congr 1
    apply List.filter_congr
    intro e _
    by_cases hj : e.1 = j <;> simp [hj, hne]

variable [DecidableEq κ]

/-- `none` when another session holds the lock. -/
def tryLock (l : AdvisoryLocks ι κ) (i : ι) (k : κ) : Option (AdvisoryLocks ι κ) :=
  if h : ∀ e ∈ l.taken, e.2 = k → e.1 = i then
    some {
      taken := (i, k) :: l.taken
      exclusive := by
        intro a ha b hb hkey
        rcases List.mem_cons.mp ha with rfl | ha
        · rcases List.mem_cons.mp hb with rfl | hb
          · rfl
          · exact (h b hb hkey.symm).symm
        · rcases List.mem_cons.mp hb with rfl | hb
          · exact h a ha hkey
          · exact l.exclusive a ha b hb hkey }
  else none

/-- Releases the lock once. -/
def unlock (l : AdvisoryLocks ι κ) (i : ι) (k : κ) : AdvisoryLocks ι κ :=
  l.shrink (l.taken.erase (i, k)) List.erase_sublist

theorem tryLock_eq_none_iff {l : AdvisoryLocks ι κ} {i : ι} {k : κ} :
    l.tryLock i k = none ↔ ∃ j, j ≠ i ∧ k ∈ l.held j := by
  unfold tryLock
  split
  · rename_i h
    constructor
    · intro heq
      cases heq
    · rintro ⟨j, hne, hj⟩
      exact absurd (h (j, k) (mem_held.mp hj) rfl) hne
  · rename_i h
    simp only [true_iff]
    push Not at h
    obtain ⟨⟨j, _⟩, hj, rfl, hne⟩ := h
    exact ⟨j, hne, mem_held.mpr hj⟩

theorem tryLock_held {l l' : AdvisoryLocks ι κ} {i : ι} {k : κ} (h : l.tryLock i k = some l') :
    l'.held i = k :: l.held i ∧ ∀ j, j ≠ i → l'.held j = l.held j := by
  unfold tryLock at h
  split at h
  · cases h
    refine ⟨by simp [held, keysOf], ?_⟩
    intro j hne
    simp [held, keysOf, hne.symm]
  · cases h

theorem keysOf_erase (taken : List (ι × κ)) (i : ι) (k : κ) :
    keysOf (taken.erase (i, k)) i = (keysOf taken i).erase k ∧
      ∀ j, j ≠ i → keysOf (taken.erase (i, k)) j = keysOf taken j := by
  induction taken with
  | nil => exact ⟨rfl, fun _ _ => rfl⟩
  | cons e rest ih =>
    obtain ⟨i', k'⟩ := e
    by_cases heq : (i', k') = (i, k)
    · cases heq
      rw [List.erase_cons_head]
      refine ⟨by simp [keysOf], ?_⟩
      intro j hne
      simp [keysOf, hne.symm]
    · rw [List.erase_cons_tail (by simpa using heq)]
      unfold keysOf at ih ⊢
      constructor
      · by_cases hi : i' = i
        · subst hi
          have hk : k' ≠ k := fun hk => heq (by rw [hk])
          simp [hk, ih.1]
        · simp [hi, ih.1]
      · intro j hne
        by_cases hj : i' = j
        · simp [hj, ih.2 j hne]
        · simp [hj, ih.2 j hne]

theorem unlock_held (l : AdvisoryLocks ι κ) (i : ι) (k : κ) :
    (l.unlock i k).held i = (l.held i).erase k ∧
      ∀ j, j ≠ i → (l.unlock i k).held j = l.held j :=
  keysOf_erase l.taken i k

end AdvisoryLocks

end Promscale.Lib
