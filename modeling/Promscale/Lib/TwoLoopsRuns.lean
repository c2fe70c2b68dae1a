import Mathlib.Algebra.Order.BigOperators.Group.List
import Mathlib.Algebra.Order.Monoid.NatCast
import Mathlib.Algebra.Order.Ring.Nat
import Promscale.Lib.TwoLoops

/-!
# Runs of sessions with two loops

What was true of an item when it was listed is true when its statements run, if whatever changes
the shared state keeps it. And sessions that only wait for each other come to their ends.
-/
namespace Promscale.Lib.TwoLoops

variable {ι κ α β σ : Type}

/-! ## What is listed stays as it was listed -/

/-- What the shared state keeps, and what it keeps about each statement that was listed. -/
structure Keeps (w : Work ι κ α β σ) (lists : σ → List α → Prop) (outside : σ → σ → Prop)
    (inv : σ → Prop) (P : σ → β → Prop) : Prop where
  lists : ∀ s listed, inv s → lists s listed → ∀ x ∈ listed, ∀ b ∈ w.statements x, P s b
  execute : ∀ i b s s', inv s → P s b → w.execute i b s = some s' →
    inv s' ∧ ∀ b', P s b' → P s' b'
  commit : ∀ i s, inv s → inv (w.commit i s) ∧ ∀ b, P s b → P (w.commit i s) b
  rollback : ∀ i s, inv s → inv (w.rollback i s) ∧ ∀ b, P s b → P (w.rollback i s) b
  outside : ∀ s s', inv s → outside s s' → inv s' ∧ ∀ b, P s b → P s' b

/-- The shared state and the statements still to run are as they should be. -/
def System.Sound (w : Work ι κ α β σ) (inv : σ → Prop) (P : σ → β → Prop)
    (s : System ι κ α β σ) : Prop :=
  inv s.shared ∧ ∀ i, ∀ b ∈ (s.session i).point.upcoming w, P s.shared b

/-- The most steps an item takes: the lock, the statements, the release and the commit. -/
def Work.cost (w : Work ι κ α β σ) (x : α) : Nat := (w.statements x).length + 3

/-- The most steps a session can take. The first loop may take one for an item it passes over. -/
def Loop.weight (w : Work ι κ α β σ) (todo : List α) : Loop α → Nat
  | .first remaining =>
    (remaining.map w.cost).sum + (todo.map fun x => w.cost x + 1).sum + 2
  | .second => (todo.map w.cost).sum + 1

def Point.weight (w : Work ι κ α β σ) : Point α β → Nat
  | .top loop todo => loop.weight w todo
  | .inside loop todo _ left => left.length + 2 + loop.weight w todo
  | .unlocked loop todo _ => 1 + loop.weight w todo
  | .ended | .failed => 0

theorem Loop.weight_cons {w : Work ι κ α β σ} (loop : Loop α) (x : α) (todo : List α) :
    w.cost x + loop.weight w todo ≤ loop.weight w (x :: todo) := by
  cases loop with
  | first remaining =>
    simp only [weight, List.map_cons, List.sum_cons]
    omega
  | second =>
    simp only [weight, List.map_cons, List.sum_cons]
    omega

namespace System

/-- The most steps that some sessions can still take. -/
def weight (w : Work ι κ α β σ) (sessions : List ι) (s : System ι κ α β σ) : Nat :=
  (sessions.map fun i => (s.session i).point.weight w).sum

/-- No session is active but these. -/
def OnlyActive (sessions : List ι) (s : System ι κ α β σ) : Prop :=
  ∀ i, (s.session i).point.active = true → i ∈ sessions

end System

theorem System.Sound.of_start {w : Work ι κ α β σ} {inv : σ → Prop} {P : σ → β → Prop}
    {shared : σ} (h : inv shared) : (start shared : System ι κ α β σ).Sound w inv P :=
  ⟨h, fun _ b hb => by cases hb⟩

/-- A change of the shared state, and the session whose transaction ends with it, if one does. -/
inductive Change (w : Work ι κ α β σ) (outside : σ → σ → Prop) (s : σ) : Option ι → σ → Prop
  | execute {i : ι} {b : β} {s' : σ} (h : w.execute i b s = some s') : Change w outside s none s'
  | commit (i : ι) : Change w outside s (some i) (w.commit i s)
  | rollback (i : ι) : Change w outside s (some i) (w.rollback i s)
  | outside {s' : σ} (h : outside s s') : Change w outside s none s'

/-- What a statement achieves for its transaction, and for good when that is committed. -/
structure Achieves (w : Work ι κ α β σ) (outside : σ → σ → Prop) (inv : σ → Prop)
    (P : σ → β → Prop) (done : ι → σ → β → Prop) (kept : σ → β → Prop) : Prop where
  execute : ∀ i b s s', inv s → P s b → w.execute i b s = some s' → done i s' b
  stays : ∀ i o s s' b, inv s → o ≠ some i → Change w outside s o s' → done i s b → done i s' b
  commit : ∀ i s b, inv s → done i s b → kept (w.commit i s) b
  kept : ∀ o s s' b, inv s → Change w outside s o s' → kept s b → kept s' b

/-- How far a session is with the statements of the item it works on. -/
def Point.Done (w : Work ι κ α β σ) (done : β → Prop) : Point α β → Prop
  | .inside _ _ x left => ∃ before, w.statements x = before ++ left ∧ ∀ b ∈ before, done b
  | .unlocked _ _ x => ∀ b ∈ w.statements x, done b
  | _ => True

theorem Point.Done.imp {w : Work ι κ α β σ} {done done' : β → Prop} {p : Point α β}
    (h : p.Done w done) (himp : ∀ b, done b → done' b) : p.Done w done' := by
  cases p with
  | inside loop todo x left =>
    obtain ⟨before, hstatements, hbefore⟩ := h
    exact ⟨before, hstatements, fun b hb => himp b (hbefore b hb)⟩
  | unlocked loop todo x => exact fun b hb => himp b (h b hb)
  | _ => trivial

/-- What was worked on is done, and what is being worked on as far as the session has come. -/
structure System.Achieved (w : Work ι κ α β σ) (done : ι → σ → β → Prop) (kept : σ → β → Prop)
    (s : System ι κ α β σ) : Prop where
  worked : ∀ i, ∀ x ∈ (s.session i).worked, ∀ b ∈ w.statements x, kept s.shared b
  point : ∀ i, (s.session i).point.Done w fun b => done i s.shared b

namespace System.Achieved

variable {w : Work ι κ α β σ} {outside : σ → σ → Prop} {inv : σ → Prop} {P : σ → β → Prop}
  {done : ι → σ → β → Prop} {kept : σ → β → Prop}

theorem of_start (shared : σ) : (start shared : System ι κ α β σ).Achieved w done kept where
  worked _ _ hx := by cases hx
  point _ := trivial

/-- The shared state changes, and with it the point of the session whose transaction ends. -/
theorem changed (ha : Achieves w outside inv P done kept) {s s' : System ι κ α β σ}
    (h : s.Achieved w done kept) (hinv : inv s.shared) {o : Option ι}
    (hchange : Change w outside s.shared o s'.shared)
    (hworked : ∀ i, ∀ x ∈ (s'.session i).worked, x ∈ (s.session i).worked ∨
      ∀ b ∈ w.statements x, kept s'.shared b)
    (hpoint : ∀ i, (s'.session i).point.Done w (fun b => done i s'.shared b) ∨
      o ≠ some i ∧ (s'.session i).point = (s.session i).point) : s'.Achieved w done kept where
  worked i x hx b hb := by
    rcases hworked i x hx with hold | hnew
    · exact ha.kept o _ _ b hinv hchange (h.worked i x hold b hb)
    · exact hnew b hb
  point i := by
    rcases hpoint i with hnew | ⟨ho, hsame⟩
    · exact hnew
    · rw [hsame]
      exact (h.point i).imp fun b hb => ha.stays i o _ _ b hinv ho hchange hb

end System.Achieved

section
variable [DecidableEq ι]

namespace System.Sound

/-- A step of one session that adds no statement to those still to run. -/
theorem update {w : Work ι κ α β σ} {inv : σ → Prop} {P : σ → β → Prop}
    {s s' : System ι κ α β σ} {i : ι} (h : s.Sound w inv P)
    (hshared : inv s'.shared ∧ ∀ b, P s.shared b → P s'.shared b)
    (hsession : ∀ j, j ≠ i → s'.session j = s.session j)
    (hupcoming : ∀ b ∈ (s'.session i).point.upcoming w, P s'.shared b ∨
      b ∈ (s.session i).point.upcoming w) : s'.Sound w inv P := by
  refine ⟨hshared.1, ?_⟩
  intro j b hb
  by_cases hji : j = i
  · subst hji
    rcases hupcoming b hb with hnew | hold
    · exact hnew
    · exact hshared.2 b (h.2 j b hold)
  · rw [hsession j hji] at hb
    exact hshared.2 b (h.2 j b hb)

variable {w : Work ι κ α β σ} {lists : σ → List α → Prop} {outside : σ → σ → Prop}
  {inv : σ → Prop} {P : σ → β → Prop}

theorem fail (hkeeps : Keeps w lists outside inv P) {s : System ι κ α β σ} {i : ι}
    (h : s.Sound w inv P) : (s.fail w i).Sound w inv P := by
  have hself : (s.fail w i).session i = { s.session i with point := .failed } :=
    moved_session_self s i .failed
  refine h.update (i := i) (hkeeps.rollback i s.shared h.1)
    (fun j hji => moved_session_of_ne hji s .failed) ?_
  rw [hself]
  intro b hb
  cases hb

variable [DecidableEq κ]

theorem goes (hkeeps : Keeps w lists outside inv P) {s s' : System ι κ α β σ} {i : ι}
    (h : s.Sound w inv P) (hgoes : Goes w s i s') : s'.Sound w inv P := by
  have hsame : inv s.shared ∧ ∀ b, P s.shared b → P s.shared b := ⟨h.1, fun _ hb => hb⟩
  cases hgoes with
  | turn hpoint =>
    refine h.update (i := i) hsame (fun j hji => moved_session_of_ne hji s _) ?_
    intro b hb
    rw [moved_session_self] at hb
    exact .inr (by simpa [hpoint, Point.upcoming, Loop.remaining] using hb)
  | postpone hpoint hlock =>
    refine h.update (i := i) hsame (fun j hji => moved_session_of_ne hji s _) ?_
    intro b hb
    rw [moved_session_self] at hb
    exact .inr (by simpa [hpoint, Point.upcoming, Loop.remaining] using hb)
  | lock hpoint hlock =>
    refine h.update (i := i) hsame (fun j hji => moved_session_of_ne hji s _) ?_
    intro b hb
    simp only [moved_session_self] at hb
    refine .inr ?_
    simp only [Point.upcoming, List.mem_append, List.mem_flatMap] at hb
    simp only [hpoint, Point.upcoming, List.mem_flatMap, List.mem_append, List.mem_cons]
    rcases hb with hb | ⟨x, hx | hx, hb⟩
    · exact ⟨_, .inr (.inl rfl), hb⟩
    · exact ⟨x, .inl hx, hb⟩
    · exact ⟨x, .inr (.inr hx), hb⟩
  | finish hpoint =>
    refine h.update (i := i) hsame (fun j hji => moved_session_of_ne hji s _) ?_
    intro b hb
    rw [moved_session_self] at hb
    cases hb
  | error hpoint hexecute => exact h.fail hkeeps
  | execute hpoint hexecute =>
    have hb := h.2 i _ (by rw [hpoint]; exact List.mem_append_left _ List.mem_cons_self)
    refine h.update (i := i) (hkeeps.execute i _ _ _ h.1 hb hexecute)
      (fun j hji => moved_session_of_ne hji s _) ?_
    intro b hb
    simp only [moved_session_self] at hb
    rw [hpoint]
    exact .inr (List.mem_cons_of_mem _ hb)
  | unlock hpoint =>
    refine h.update (i := i) hsame (fun j hji => moved_session_of_ne hji s _) ?_
    intro b hb
    simp only [moved_session_self] at hb
    exact .inr (by simpa [hpoint, Point.upcoming] using hb)
  | commit hpoint =>
    refine h.update (i := i) (hkeeps.commit i s.shared h.1) (fun j hji => assign_of_ne hji _ _) ?_
    intro b hb
    simp only [assign_self] at hb
    exact .inr (by simpa [hpoint, Point.upcoming] using hb)

theorem step (hkeeps : Keeps w lists outside inv P) {s s' : System ι κ α β σ} {e : Event ι α}
    (h : s.Sound w inv P) (hstep : Step w lists outside s e s') : s'.Sound w inv P := by
  cases hstep with
  | begins hended hlists =>
    rename_i i listed
    refine h.update (i := i) ⟨h.1, fun _ hb => hb⟩ (fun j hji => assign_of_ne hji _ _) ?_
    intro b hb
    have hself : (s.begin i listed).session i = ⟨.top (.first []) listed, listed, []⟩ :=
      assign_self _ _ _
    rw [hself] at hb
    obtain ⟨x, hx, hb⟩ := List.mem_flatMap.mp hb
    exact .inl (hkeeps.lists s.shared listed h.1 hlists x hx b hb)
  | goesOn hnext => exact h.goes hkeeps (goes_of_next hnext)
  | breaksOff hne => exact h.fail hkeeps
  | outside houtside =>
    have hshared := hkeeps.outside _ _ h.1 houtside
    exact ⟨hshared.1, fun i b hb => hshared.2 b (h.2 i b hb)⟩

theorem run (hkeeps : Keeps w lists outside inv P) {s s' : System ι κ α β σ}
    {trace : List (Event ι α × System ι κ α β σ)} (h : s.Sound w inv P)
    (hrun : Run (Step w lists outside) s trace s') : s'.Sound w inv P := by
  induction hrun with
  | nil => exact h
  | snoc _ hstep ih => exact ih.step hkeeps hstep

end System.Sound

/-! ## What is worked on is done -/

namespace System.Achieved

variable {w : Work ι κ α β σ} {lists : σ → List α → Prop} {outside : σ → σ → Prop}
  {inv : σ → Prop} {P : σ → β → Prop} {done : ι → σ → β → Prop} {kept : σ → β → Prop}

/-- The shared state is as it was, and one session is somewhere else. -/
theorem moved {s : System ι κ α β σ} {i : ι} (h : s.Achieved w done kept) (point : Point α β)
    (hpoint : point.Done w fun b => done i s.shared b) (locks : AdvisoryLocks ι κ) :
    Achieved w done kept { s.moved i point with locks } where
  worked j x hx b hb := by
    by_cases hji : j = i
    · subst hji
      simp only [moved_session_self] at hx
      exact h.worked j x hx b hb
    · simp only [moved_session_of_ne hji] at hx
      exact h.worked j x hx b hb
  point j := by
    by_cases hji : j = i
    · subst hji
      simp only [moved_session_self]
      exact hpoint
    · simp only [moved_session_of_ne hji]
      exact h.point j

theorem fail (ha : Achieves w outside inv P done kept) {s : System ι κ α β σ} {i : ι}
    (h : s.Achieved w done kept) (hinv : inv s.shared) : (s.fail w i).Achieved w done kept := by
  have hself : (s.fail w i).session i = { s.session i with point := .failed } :=
    moved_session_self s i .failed
  have hother : ∀ j, j ≠ i → (s.fail w i).session j = s.session j :=
    fun j hji => moved_session_of_ne hji s .failed
  refine h.changed ha hinv (.rollback i) ?_ ?_
  · intro j x hx
    by_cases hji : j = i
    · subst hji
      rw [hself] at hx
      exact .inl hx
    · rw [hother j hji] at hx
      exact .inl hx
  · intro j
    by_cases hji : j = i
    · subst hji
      rw [hself]
      exact .inl trivial
    · exact .inr ⟨fun heq => hji (Option.some.inj heq).symm, by rw [hother j hji]⟩

variable [DecidableEq κ]

theorem goes (ha : Achieves w outside inv P done kept) {s s' : System ι κ α β σ} {i : ι}
    (h : s.Achieved w done kept) (hsound : s.Sound w inv P) (hgoes : Goes w s i s') :
    s'.Achieved w done kept := by
  have hi := h.point i
  cases hgoes with
  | turn hpoint => exact h.moved _ (by trivial) s.locks
  | postpone hpoint hlock => exact h.moved _ (by trivial) s.locks
  | lock hpoint hlock => exact h.moved (.inside _ _ _ _) ⟨[], rfl, by simp⟩ _
  | finish hpoint => exact h.moved _ (by trivial) s.locks
  | error hpoint hexecute => exact h.fail ha hsound.1
  | execute hpoint hexecute =>
    rename_i loop todo x b left shared
    have hb := hsound.2 i b (by rw [hpoint]; exact List.mem_append_left _ List.mem_cons_self)
    rw [hpoint] at hi
    obtain ⟨before, hstatements, hbefore⟩ := hi
    have hchange : Change w outside s.shared none shared := .execute hexecute
    refine h.changed ha hsound.1 hchange ?_ ?_
    · intro j y hy
      by_cases hji : j = i
      · subst hji
        simp only [moved_session_self] at hy
        exact .inl hy
      · simp only [moved_session_of_ne hji] at hy
        exact .inl hy
    · intro j
      by_cases hji : j = i
      · subst hji
        refine .inl ?_
        simp only [moved_session_self]
        refine ⟨before ++ [b], by rw [hstatements, List.append_assoc]; rfl, ?_⟩
        intro b' hb'
        rcases List.mem_append.mp hb' with hold | hnew
        · exact ha.stays j none _ _ b' hsound.1 (by simp) hchange (hbefore b' hold)
        · rw [List.mem_singleton.mp hnew]
          exact ha.execute j b _ _ hsound.1 hb hexecute
      · exact .inr ⟨by simp, by simp only [moved_session_of_ne hji]⟩
  | unlock hpoint =>
    rw [hpoint] at hi
    obtain ⟨before, hstatements, hbefore⟩ := hi
    rw [List.append_nil] at hstatements
    exact h.moved (.unlocked _ _ _) (fun b hb => hbefore b (hstatements ▸ hb)) _
  | commit hpoint =>
    rename_i loop todo x
    rw [hpoint] at hi
    refine h.changed ha hsound.1 (.commit i) ?_ ?_
    · intro j y hy
      by_cases hji : j = i
      · subst hji
        simp only [assign_self] at hy
        rcases List.mem_append.mp hy with hold | hnew
        · exact .inl hold
        · rw [List.mem_singleton.mp hnew]
          exact .inr fun b hb => ha.commit j _ b hsound.1 (hi b hb)
      · simp only [assign_of_ne hji] at hy
        exact .inl hy
    · intro j
      by_cases hji : j = i
      · subst hji
        simp only [assign_self]
        exact .inl trivial
      · exact .inr ⟨fun heq => hji (Option.some.inj heq).symm, by simp only [assign_of_ne hji]⟩

theorem step (ha : Achieves w outside inv P done kept) {s s' : System ι κ α β σ}
    {e : Event ι α} (h : s.Achieved w done kept)
    (hsound : s.Sound w inv P) (hstep : Step w lists outside s e s') :
    s'.Achieved w done kept := by
  cases hstep with
  | begins hended hlists =>
    rename_i i listed
    have hself : (s.begin i listed).session i = ⟨.top (.first []) listed, listed, []⟩ :=
      assign_self _ _ _
    have hother : ∀ j, j ≠ i → (s.begin i listed).session j = s.session j :=
      fun j hji => assign_of_ne hji _ _
    constructor
    · intro j x hx b hb
      by_cases hji : j = i
      · subst hji
        rw [hself] at hx
        cases hx
      · rw [hother j hji] at hx
        exact h.worked j x hx b hb
    · intro j
      by_cases hji : j = i
      · subst hji
        rw [hself]
        trivial
      · rw [hother j hji]
        exact h.point j
  | goesOn hnext => exact h.goes ha hsound (goes_of_next hnext)
  | breaksOff hne => exact h.fail ha hsound.1
  | outside houtside =>
    exact h.changed ha hsound.1 (.outside houtside) (fun _ _ hx => .inl hx)
      fun _ => .inr ⟨by simp, rfl⟩

/-- When a session has worked on an item, what its statements achieve holds from then on. -/
theorem run (hkeeps : Keeps w lists outside inv P) (ha : Achieves w outside inv P done kept)
    {s s' : System ι κ α β σ} {trace : List (Event ι α × System ι κ α β σ)}
    (h : s.Achieved w done kept) (hsound : s.Sound w inv P)
    (hrun : Run (Step w lists outside) s trace s') : s'.Achieved w done kept := by
  suffices hboth : s'.Sound w inv P ∧ s'.Achieved w done kept from hboth.2
  induction hrun with
  | nil => exact ⟨hsound, h⟩
  | snoc _ hstep ih => exact ⟨ih.1.step hkeeps hstep, ih.2.step ha ih.1 hstep⟩

end System.Achieved

/-! ## Every session comes to its end -/

variable [DecidableEq κ]

namespace System

theorem Goes.active {w : Work ι κ α β σ} {s s' : System ι κ α β σ} {i : ι} (h : Goes w s i s') :
    (s.session i).point.active = true := by
  cases h with
  | turn hpoint => rw [hpoint]; rfl
  | postpone hpoint => rw [hpoint]; rfl
  | lock hpoint => rw [hpoint]; rfl
  | finish hpoint => rw [hpoint]; rfl
  | error hpoint => rw [hpoint]; rfl
  | execute hpoint => rw [hpoint]; rfl
  | unlock hpoint => rw [hpoint]; rfl
  | commit hpoint => rw [hpoint]; rfl

/-- Each step of a session brings it closer to its end. -/
theorem Goes.weight_lt {w : Work ι κ α β σ} {s s' : System ι κ α β σ} {i : ι}
    (h : Goes w s i s') :
    (s'.session i).point.weight w < (s.session i).point.weight w := by
  cases h with
  | turn hpoint => simp [hpoint, Point.weight, Loop.weight]
  | postpone hpoint hlock =>
    simp only [hpoint, moved_session_self, Point.weight, Loop.weight, List.map_append,
      List.sum_append, List.map_cons, List.sum_cons, List.map_nil, List.sum_nil]
    omega
  | lock hpoint hlock =>
    rename_i loop todo x locks
    have hcons := loop.weight_cons (w := w) x todo
    simp only [Work.cost] at hcons
    simp only [hpoint, moved_session_self, Point.weight]
    omega
  | finish hpoint => simp [hpoint, Point.weight, Loop.weight]
  | error hpoint hexecute =>
    have hself : (s.fail w i).session i = { s.session i with point := .failed } :=
      moved_session_self s i .failed
    simp only [hself, hpoint, Point.weight]
    omega
  | execute hpoint hexecute => simp [hpoint, Point.weight]
  | unlock hpoint =>
    simp only [hpoint, moved_session_self, Point.weight]
    omega
  | commit hpoint =>
    simp only [hpoint, assign_self, Point.weight]
    omega

theorem Goes.session_of_ne {w : Work ι κ α β σ} {s s' : System ι κ α β σ} {i j : ι}
    (h : Goes w s i s') (hne : j ≠ i) : s'.session j = s.session j := by
  cases h with
  | error hpoint hexecute => exact moved_session_of_ne hne s .failed
  | commit hpoint => exact assign_of_ne hne _ _
  | _ => exact moved_session_of_ne hne s _

theorem Goes.total_lt {w : Work ι κ α β σ} {s s' : System ι κ α β σ} {i : ι}
    (h : Goes w s i s') {sessions : List ι} (hi : i ∈ sessions) :
    s'.weight w sessions < s.weight w sessions := by
  have hle : ∀ j, (s'.session j).point.weight w ≤ (s.session j).point.weight w := by
    intro j
    by_cases hji : j = i
    · rw [hji]
      exact Nat.le_of_lt h.weight_lt
    · exact Nat.le_of_eq (by rw [h.session_of_ne hji])
  exact List.sum_lt_sum _ _ (fun j _ => hle j) ⟨i, hi, h.weight_lt⟩

theorem Goes.onlyActive {w : Work ι κ α β σ} {s s' : System ι κ α β σ} {i : ι}
    (h : Goes w s i s') {sessions : List ι} (honly : s.OnlyActive sessions) :
    s'.OnlyActive sessions := by
  intro j hj
  by_cases hji : j = i
  · rw [hji]
    exact honly i h.active
  · rw [h.session_of_ne hji] at hj
    exact honly j hj

/-- Whichever sessions go on in whatever order, together they take so many steps at most. -/
theorem length_le_weight {w : Work ι κ α β σ} {sessions turns : List ι}
    {s s' : System ι κ α β σ} (honly : s.OnlyActive sessions)
    (hturns : turns.foldlM (fun t i => t.next w i) s = some s') :
    turns.length ≤ s.weight w sessions := by
  induction turns generalizing s with
  | nil => exact Nat.zero_le _
  | cons i turns ih =>
    rw [List.foldlM_cons] at hturns
    obtain ⟨t, hnext, hturns⟩ := Option.bind_eq_some_iff.mp hturns
    have hgoes := goes_of_next hnext
    have hactive : i ∈ sessions := honly i hgoes.active
    have hrest := ih (hgoes.onlyActive honly) hturns
    have hlt := hgoes.total_lt hactive
    rw [List.length_cons]
    omega

/-- From wherever the sessions are they can all come to their ends. -/
theorem Fits.exists_all_inactive {w : Work ι κ α β σ} {sessions : List ι}
    {s : System ι κ α β σ} (h : s.Fits w) (honly : s.OnlyActive sessions) :
    ∃ (turns : List ι) (s' : System ι κ α β σ), turns.foldlM (fun t i => t.next w i) s = some s' ∧
      ∀ i, (s'.session i).point.active = false := by
  induction hn : s.weight w sessions using Nat.strong_induction_on generalizing s with
  | _ n ih =>
    by_cases hsome : ∃ i, (s.session i).point.active = true
    · obtain ⟨i, hi⟩ := hsome
      obtain ⟨j, t, hnext⟩ := h.exists_next hi
      have hgoes := goes_of_next hnext
      have hj : j ∈ sessions := honly j hgoes.active
      obtain ⟨turns, s', hturns, hend⟩ := ih _ (hn ▸ hgoes.total_lt hj) (h.goes hgoes)
        (hgoes.onlyActive honly) rfl
      refine ⟨j :: turns, s', ?_, hend⟩
      rw [List.foldlM_cons, hnext]
      exact hturns
    · refine ⟨[], s, rfl, ?_⟩
      intro i
      by_contra hne
      exact hsome ⟨i, by simpa using hne⟩

end System

end

end Promscale.Lib.TwoLoops
