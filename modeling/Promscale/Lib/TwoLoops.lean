import Mathlib.Algebra.BigOperators.Group.List.Basic
import Promscale.Lib.AdvisoryLocks
import Promscale.Lib.Run
import Promscale.Lib.Table

/-!
# Two loops over items under locks

A session lists items and works on each under the lock of the item. Its first loop passes over
the items whose locks other sessions hold; its second loop takes these up and waits for the locks.
Sessions run next to each other and next to whatever else changes the state they share.
-/
namespace Promscale.Lib.TwoLoops

/-- What sessions do with items: the lock of an item, the statements of the work on it, what a
statement does (`none` for an error), and the end of a transaction. -/
structure Work (ι κ α β σ : Type) where
  key : α → κ
  statements : α → List β
  execute : ι → β → σ → Option σ
  commit : ι → σ → σ
  rollback : ι → σ → σ

/-- The first loop collects the items it passes over. -/
inductive Loop (α : Type) where
  | first (remaining : List α)
  | second
  deriving DecidableEq

def Loop.remaining {α : Type} : Loop α → List α
  | .first remaining => remaining
  | .second => []

/-- Where a session is. -/
inductive Point (α β : Type) where
  /-- Before the next item of a loop. -/
  | top (loop : Loop α) (todo : List α)
  /-- At work on an item, with the statements that are left. -/
  | inside (loop : Loop α) (todo : List α) (x : α) (left : List β)
  /-- The lock is released, the transaction not ended. -/
  | unlocked (loop : Loop α) (todo : List α) (x : α)
  | ended
  | failed
  deriving DecidableEq

/-- A session with the items it listed and those it has done the work on. -/
structure Session (α β : Type) where
  point : Point α β
  listed : List α
  worked : List α

structure System (ι κ α β σ : Type) where
  shared : σ
  locks : AdvisoryLocks ι κ
  session : ι → Session α β

variable {ι κ α β σ : Type}

namespace Point

/-- Neither ended nor failed. -/
def active : Point α β → Bool
  | .ended | .failed => false
  | _ => true

/-- The item whose lock the session holds. -/
def lockedItem : Point α β → Option α
  | .inside _ _ x _ => some x
  | _ => none

/-- The items whose work has not been committed. -/
def left : Point α β → List α
  | .top loop todo => loop.remaining ++ todo
  | .inside loop todo x _ => x :: (loop.remaining ++ todo)
  | .unlocked loop todo x => x :: (loop.remaining ++ todo)
  | .ended | .failed => []

/-- The statements the session has still to run, if no error stops it. -/
def upcoming (w : Work ι κ α β σ) : Point α β → List β
  | .top loop todo => (loop.remaining ++ todo).flatMap w.statements
  | .inside loop todo _ left => left ++ (loop.remaining ++ todo).flatMap w.statements
  | .unlocked loop todo _ => (loop.remaining ++ todo).flatMap w.statements
  | .ended | .failed => []

end Point

section Next
variable [DecidableEq ι]

namespace System

/-- No session has begun. -/
def start (shared : σ) : System ι κ α β σ :=
  ⟨shared, .empty, fun _ => ⟨.ended, [], []⟩⟩

def moved (s : System ι κ α β σ) (i : ι) (point : Point α β) : System ι κ α β σ :=
  { s with session := assign s.session i { s.session i with point } }

/-- An error ends the session. -/
def fail (w : Work ι κ α β σ) (s : System ι κ α β σ) (i : ι) : System ι κ α β σ :=
  { s.moved i .failed with shared := w.rollback i s.shared, locks := s.locks.endSession i }

/-- The session has listed items. -/
def begin (s : System ι κ α β σ) (i : ι) (listed : List α) : System ι κ α β σ :=
  { s with session := assign s.session i ⟨.top (.first []) listed, listed, []⟩ }

@[simp] theorem moved_session_self (s : System ι κ α β σ) (i : ι) (point : Point α β) :
    (s.moved i point).session i = { s.session i with point } :=
  assign_self _ _ _

@[simp] theorem moved_session_of_ne {i j : ι} (h : j ≠ i) (s : System ι κ α β σ)
    (point : Point α β) : (s.moved i point).session j = s.session j :=
  assign_of_ne h _ _

end System

/-- The work done and the work left make up what was listed. -/
structure Session.Tallies (s : Session α β) : Prop where
  all : s.point ≠ .failed → (s.worked ++ s.point.left).Perm s.listed
  partly : s.worked.Subperm s.listed

/-- Each session holds the lock of the item it works on and no other, and its tally is right. -/
structure System.Fits (w : Work ι κ α β σ) (s : System ι κ α β σ) : Prop where
  held : ∀ i, s.locks.held i = ((s.session i).point.lockedItem.map w.key).toList
  tally : ∀ i, (s.session i).Tallies

namespace System.Fits

theorem of_start (w : Work ι κ α β σ) (shared : σ) : (start shared : System ι κ α β σ).Fits w where
  held _ := rfl
  tally _ := ⟨fun _ => .refl _, .refl _⟩

/-- One session went on. -/
theorem update {w : Work ι κ α β σ} {s s' : System ι κ α β σ} {i : ι} (h : s.Fits w)
    (hsession : ∀ j, j ≠ i → s'.session j = s.session j)
    (hlocks : ∀ j, j ≠ i → s'.locks.held j = s.locks.held j)
    (hheld : s'.locks.held i = ((s'.session i).point.lockedItem.map w.key).toList)
    (htally : (s'.session i).Tallies) : s'.Fits w where
  held j := by
    by_cases hji : j = i
    · rw [hji]
      exact hheld
    · rw [hlocks j hji, hsession j hji]
      exact h.held j
  tally j := by
    by_cases hji : j = i
    · rw [hji]
      exact htally
    · rw [hsession j hji]
      exact h.tally j

/-- What is left is listed in another order, or nothing is. -/
theorem moved_tallies {w : Work ι κ α β σ} {s : System ι κ α β σ} {i : ι} {point : Point α β}
    (h : s.Fits w) (hpoint : (s.session i).point ≠ .failed)
    (hleft : point ≠ .failed → ((s.session i).point.left).Perm point.left) :
    ({ s.session i with point } : Session α β).Tallies where
  all hne := (((hleft hne).append_left _).symm).trans ((h.tally i).all hpoint)
  partly := (h.tally i).partly

theorem fail {w : Work ι κ α β σ} {s : System ι κ α β σ} {i : ι} (h : s.Fits w) :
    (s.fail w i).Fits w := by
  obtain ⟨hnone, hothers⟩ := s.locks.endSession_held i
  have hself : (s.fail w i).session i = { s.session i with point := .failed } :=
    moved_session_self s i .failed
  refine h.update (i := i) (fun j hji => moved_session_of_ne hji s .failed) hothers ?_ ?_
  · rw [hself]
    exact hnone
  · rw [hself]
    exact ⟨fun hne => absurd rfl hne, (h.tally i).partly⟩

/-- Two sessions are never at work on items with one key. -/
theorem eq_of_key_eq {w : Work ι κ α β σ} {s : System ι κ α β σ} (h : s.Fits w) {i j : ι} {x y : α}
    (hi : (s.session i).point.lockedItem = some x) (hj : (s.session j).point.lockedItem = some y)
    (hkey : w.key x = w.key y) : i = j := by
  have hheldi : w.key x ∈ s.locks.held i := by
    rw [h.held i, hi]
    exact List.mem_singleton_self _
  have hheldj : w.key x ∈ s.locks.held j := by
    rw [h.held j, hj, hkey]
    exact List.mem_singleton_self _
  exact AdvisoryLocks.eq_of_mem_held hheldi hheldj

end System.Fits

/-! ## Steps -/

variable [DecidableEq κ]

namespace System

/-- The next step of a session; `none` when it waits or has none. -/
def next (w : Work ι κ α β σ) (s : System ι κ α β σ) (i : ι) : Option (System ι κ α β σ) :=
  match (s.session i).point with
  | .top (.first remaining) [] => some (s.moved i (.top .second remaining))
  | .top (.first remaining) (x :: todo) =>
    match s.locks.tryLock i (w.key x) with
    | none => some (s.moved i (.top (.first (remaining ++ [x])) todo))
    | some locks =>
      some { s.moved i (.inside (.first remaining) todo x (w.statements x)) with locks }
  | .top .second [] => some (s.moved i .ended)
  | .top .second (x :: todo) =>
    (s.locks.tryLock i (w.key x)).map fun locks =>
      { s.moved i (.inside .second todo x (w.statements x)) with locks }
  | .inside loop todo x (b :: left) =>
    match w.execute i b s.shared with
    | none => some (s.fail w i)
    | some shared => some { s.moved i (.inside loop todo x left) with shared }
  | .inside loop todo x [] =>
    some { s.moved i (.unlocked loop todo x) with locks := s.locks.unlock i (w.key x) }
  | .unlocked loop todo x =>
    some {
      shared := w.commit i s.shared
      locks := s.locks
      session := assign s.session i
        ⟨.top loop todo, (s.session i).listed, (s.session i).worked ++ [x]⟩ }
  | .ended => none
  | .failed => none

end System

/-- What happens: a session lists items and begins, goes on or breaks off, or something outside
changes the shared state. -/
inductive Event (ι α : Type) where
  | begins (i : ι) (listed : List α)
  | goesOn (i : ι)
  | breaksOff (i : ι)
  | outside

/-- One step of the sessions and of what is around them. -/
inductive Step (w : Work ι κ α β σ) (lists : σ → List α → Prop) (outside : σ → σ → Prop)
    (s : System ι κ α β σ) : Event ι α → System ι κ α β σ → Prop
  | begins {i : ι} {listed : List α} (hended : (s.session i).point = .ended)
      (hlists : lists s.shared listed) : Step w lists outside s (.begins i listed) (s.begin i listed)
  | goesOn {i : ι} {s' : System ι κ α β σ} (h : s.next w i = some s') :
      Step w lists outside s (.goesOn i) s'
  | breaksOff {i : ι} (h : (s.session i).point ≠ .failed) :
      Step w lists outside s (.breaksOff i) (s.fail w i)
  | outside {shared : σ} (h : outside s.shared shared) :
      Step w lists outside s .outside { s with shared }

namespace System

/-- All that a step of a session can be. -/
inductive Goes (w : Work ι κ α β σ) (s : System ι κ α β σ) (i : ι) : System ι κ α β σ → Prop
  | turn {remaining : List α} (hpoint : (s.session i).point = .top (.first remaining) []) :
      Goes w s i (s.moved i (.top .second remaining))
  | postpone {remaining todo : List α} {x : α}
      (hpoint : (s.session i).point = .top (.first remaining) (x :: todo))
      (hlock : s.locks.tryLock i (w.key x) = none) :
      Goes w s i (s.moved i (.top (.first (remaining ++ [x])) todo))
  | lock {loop : Loop α} {todo : List α} {x : α} {locks : AdvisoryLocks ι κ}
      (hpoint : (s.session i).point = .top loop (x :: todo))
      (hlock : s.locks.tryLock i (w.key x) = some locks) :
      Goes w s i { s.moved i (.inside loop todo x (w.statements x)) with locks }
  | finish (hpoint : (s.session i).point = .top .second []) : Goes w s i (s.moved i .ended)
  | error {loop : Loop α} {todo : List α} {x : α} {b : β} {left : List β}
      (hpoint : (s.session i).point = .inside loop todo x (b :: left))
      (hexecute : w.execute i b s.shared = none) : Goes w s i (s.fail w i)
  | execute {loop : Loop α} {todo : List α} {x : α} {b : β} {left : List β} {shared : σ}
      (hpoint : (s.session i).point = .inside loop todo x (b :: left))
      (hexecute : w.execute i b s.shared = some shared) :
      Goes w s i { s.moved i (.inside loop todo x left) with shared }
  | unlock {loop : Loop α} {todo : List α} {x : α}
      (hpoint : (s.session i).point = .inside loop todo x []) :
      Goes w s i { s.moved i (.unlocked loop todo x) with locks := s.locks.unlock i (w.key x) }
  | commit {loop : Loop α} {todo : List α} {x : α}
      (hpoint : (s.session i).point = .unlocked loop todo x) :
      Goes w s i {
        shared := w.commit i s.shared
        locks := s.locks
        session := assign s.session i
          ⟨.top loop todo, (s.session i).listed, (s.session i).worked ++ [x]⟩ }

theorem goes_of_next {w : Work ι κ α β σ} {s s' : System ι κ α β σ} {i : ι}
    (h : s.next w i = some s') : Goes w s i s' := by
  unfold next at h
  cases hpoint : (s.session i).point with
  | top loop todo =>
    rw [hpoint] at h
    cases loop with
    | first remaining =>
      cases todo with
      | nil =>
        cases h
        exact .turn hpoint
      | cons x todo =>
        dsimp only at h
        split at h
        · rename_i hlock
          cases h
          exact .postpone hpoint hlock
        · rename_i hlock
          cases h
          exact .lock hpoint hlock
    | second =>
      cases todo with
      | nil =>
        cases h
        exact .finish hpoint
      | cons x todo =>
        obtain ⟨locks, hlock, rfl⟩ := Option.map_eq_some_iff.mp h
        exact .lock hpoint hlock
  | inside loop todo x left =>
    rw [hpoint] at h
    cases left with
    | nil =>
      cases h
      exact .unlock hpoint
    | cons b left =>
      dsimp only at h
      split at h
      · rename_i hexecute
        cases h
        exact .error hpoint hexecute
      · rename_i hexecute
        cases h
        exact .execute hpoint hexecute
  | unlocked loop todo x =>
    rw [hpoint] at h
    cases h
    exact .commit hpoint
  | ended =>
    rw [hpoint] at h
    cases h
  | failed =>
    rw [hpoint] at h
    cases h

/-- A session only waits for another one that is at work on an item. -/
theorem next_eq_none {w : Work ι κ α β σ} {s : System ι κ α β σ} {i : ι}
    (hactive : (s.session i).point.active = true) (h : s.next w i = none) :
    ∃ x todo j, (s.session i).point = .top .second (x :: todo) ∧ j ≠ i ∧
      w.key x ∈ s.locks.held j := by
  unfold next at h
  cases hpoint : (s.session i).point with
  | top loop todo =>
    rw [hpoint] at h
    cases loop with
    | first remaining =>
      cases todo with
      | nil => cases h
      | cons x todo =>
        dsimp only at h
        split at h <;> cases h
    | second =>
      cases todo with
      | nil => cases h
      | cons x todo =>
        rw [Option.map_eq_none_iff, AdvisoryLocks.tryLock_eq_none_iff] at h
        obtain ⟨j, hne, hheld⟩ := h
        exact ⟨x, todo, j, rfl, hne, hheld⟩
  | inside loop todo x left =>
    rw [hpoint] at h
    cases left with
    | nil => cases h
    | cons b left =>
      dsimp only at h
      split at h <;> cases h
  | unlocked loop todo x =>
    rw [hpoint] at h
    cases h
  | ended =>
    rw [hpoint] at hactive
    cases hactive
  | failed =>
    rw [hpoint] at hactive
    cases hactive

end System

/-! ## What the sessions keep -/

namespace System.Fits

theorem goes {w : Work ι κ α β σ} {s s' : System ι κ α β σ} {i : ι} (h : s.Fits w)
    (hgoes : Goes w s i s') : s'.Fits w := by
  have hheld := h.held i
  cases hgoes with
  | turn hpoint =>
    rw [hpoint] at hheld
    refine h.update (i := i) (fun j hji => moved_session_of_ne hji s _) (fun _ _ => rfl) ?_ ?_
    · rw [moved_session_self]
      exact hheld
    · rw [moved_session_self]
      exact h.moved_tallies (by simp [hpoint])
        fun _ => by simp [hpoint, Point.left, Loop.remaining]
  | postpone hpoint hlock =>
    rw [hpoint] at hheld
    refine h.update (i := i) (fun j hji => moved_session_of_ne hji s _) (fun _ _ => rfl) ?_ ?_
    · rw [moved_session_self]
      exact hheld
    · rw [moved_session_self]
      exact h.moved_tallies (by simp [hpoint])
        fun _ => by simp [hpoint, Point.left, Loop.remaining]
  | lock hpoint hlock =>
    rw [hpoint] at hheld
    obtain ⟨hnew, hothers⟩ := AdvisoryLocks.tryLock_held hlock
    refine h.update (i := i) (fun j hji => moved_session_of_ne hji s _) hothers ?_ ?_
    · simp only [moved_session_self]
      rw [hnew, hheld]
      rfl
    · simp only [moved_session_self]
      exact h.moved_tallies (by simp [hpoint])
        fun _ => by simp [hpoint, Point.left]
  | finish hpoint =>
    rw [hpoint] at hheld
    refine h.update (i := i) (fun j hji => moved_session_of_ne hji s _) (fun _ _ => rfl) ?_ ?_
    · rw [moved_session_self]
      exact hheld
    · rw [moved_session_self]
      exact h.moved_tallies (by simp [hpoint])
        fun _ => by simp [hpoint, Point.left, Loop.remaining]
  | error hpoint hexecute => exact h.fail
  | execute hpoint hexecute =>
    rw [hpoint] at hheld
    refine h.update (i := i) (fun j hji => moved_session_of_ne hji s _) (fun _ _ => rfl) ?_ ?_
    · simp only [moved_session_self]
      exact hheld
    · simp only [moved_session_self]
      exact h.moved_tallies (by simp [hpoint]) fun _ => by simp [hpoint, Point.left]
  | unlock hpoint =>
    rw [hpoint] at hheld
    obtain ⟨hreleased, hothers⟩ := s.locks.unlock_held i (w.key _)
    refine h.update (i := i) (fun j hji => moved_session_of_ne hji s _) hothers ?_ ?_
    · simp only [moved_session_self]
      rw [hreleased, hheld]
      simp [Point.lockedItem]
    · simp only [moved_session_self]
      exact h.moved_tallies (by simp [hpoint]) fun _ => by simp [hpoint, Point.left]
  | commit hpoint =>
    rename_i loop todo x
    rw [hpoint] at hheld
    have htally := (h.tally i).all (by simp [hpoint])
    simp only [hpoint, Point.left] at htally
    have hall : (((s.session i).worked ++ [x]) ++ (loop.remaining ++ todo)).Perm
        (s.session i).listed := by
      rw [List.append_assoc]
      exact htally
    refine h.update (i := i) (fun j hji => assign_of_ne hji _ _) (fun _ _ => rfl) ?_ ?_
    · simp only [assign_self]
      exact hheld
    · simp only [assign_self]
      exact ⟨fun _ => hall, (List.sublist_append_left _ _).subperm.trans hall.subperm⟩

theorem step {w : Work ι κ α β σ} {lists : σ → List α → Prop} {outside : σ → σ → Prop}
    {s s' : System ι κ α β σ} {e : Event ι α} (h : s.Fits w) (hstep : Step w lists outside s e s') :
    s'.Fits w := by
  cases hstep with
  | begins hended hlists =>
    rename_i i listed
    have hself : (s.begin i listed).session i = ⟨.top (.first []) listed, listed, []⟩ :=
      assign_self _ _ _
    refine h.update (i := i) (fun j hji => assign_of_ne hji _ _) (fun _ _ => rfl) ?_ ?_
    · rw [hself]
      exact (h.held i).trans (by rw [hended]; rfl)
    · rw [hself]
      exact ⟨fun _ => .refl _, List.nil_subperm⟩
  | goesOn hnext => exact h.goes (goes_of_next hnext)
  | breaksOff hne => exact h.fail
  | outside houtside => exact ⟨h.held, h.tally⟩

theorem run {w : Work ι κ α β σ} {lists : σ → List α → Prop} {outside : σ → σ → Prop}
    {s s' : System ι κ α β σ} {trace : List (Event ι α × System ι κ α β σ)} (h : s.Fits w)
    (hrun : Run (Step w lists outside) s trace s') : s'.Fits w := by
  induction hrun with
  | nil => exact h
  | snoc _ hstep ih => exact ih.step hstep

/-- Who waits does so for a session that can go on. -/
theorem exists_next {w : Work ι κ α β σ} {s : System ι κ α β σ} (h : s.Fits w) {i : ι}
    (hactive : (s.session i).point.active = true) : ∃ j s', s.next w j = some s' := by
  cases hnext : s.next w i with
  | some s' => exact ⟨i, s', hnext⟩
  | none =>
    obtain ⟨x, todo, j, _, _, hheld⟩ := System.next_eq_none hactive hnext
    rw [h.held j] at hheld
    have hinside : ∃ loop todo y left, (s.session j).point = .inside loop todo y left := by
      cases hpoint : (s.session j).point with
      | inside loop todo y left => exact ⟨loop, todo, y, left, rfl⟩
      | _ => simp [hpoint, Point.lockedItem] at hheld
    obtain ⟨loop, todo, y, left, hpoint⟩ := hinside
    cases hj : s.next w j with
    | some s' => exact ⟨j, s', hj⟩
    | none =>
      obtain ⟨_, _, _, htop, _⟩ := System.next_eq_none (by rw [hpoint]; rfl) hj
      rw [hpoint] at htop
      cases htop

end System.Fits

end Next

end Promscale.Lib.TwoLoops
