/-!
# Runs of a transition system

Two shapes of run: a relation with the trace of what happened, and a total step function
folded over a list of inputs. For the second, a property holds in every state a run
visits exactly when each of its steps meets the condition under which one step keeps it.
-/
namespace Promscale.Lib

variable {σ ε : Type}

/-- A run from `init` with its trace, each event with the state it led to, oldest first. -/
inductive Run (step : σ → ε → σ → Prop) (init : σ) : List (ε × σ) → σ → Prop
  | nil : Run step init [] init
  | snoc {trace : List (ε × σ)} {s s' : σ} {e : ε} :
      Run step init trace s → step s e s' → Run step init (trace ++ [(e, s')]) s'

/-- What holds at the start and is kept by every step holds after every run; it may
speak of the trace. -/
theorem Run.invariant {step : σ → ε → σ → Prop} {init : σ} {inv : List (ε × σ) → σ → Prop}
    (hinit : inv [] init)
    (hstep : ∀ trace s e s', inv trace s → step s e s' → inv (trace ++ [(e, s')]) s')
    {trace : List (ε × σ)} {s : σ} (h : Run step init trace s) : inv trace s := by
  induction h with
  | nil => exact hinit
  | snoc _ hs ih => exact hstep _ _ _ _ ih hs

/-- The state a trace has led to. -/
def lastState (init : σ) (trace : List (ε × σ)) : σ :=
  (trace.getLast?.map (·.2)).getD init

/-- A run goes on from where another one ended, also with fewer kinds of steps. -/
theorem Run.append {step step' : σ → ε → σ → Prop} {init : σ} {trace trace' : List (ε × σ)}
    {s s' : σ} (h : Run step init trace s) (hstep : ∀ s e s', step' s e s' → step s e s')
    (h' : Run step' s trace' s') : Run step init (trace ++ trace') s' := by
  induction h' with
  | nil => rwa [List.append_nil]
  | snoc _ hs ih =>
    rw [← List.append_assoc]
    exact ih.snoc (hstep _ _ _ hs)

/-- Replaying a script, each item of which makes a step, prolongs a run. -/
theorem Run.replay {ι : Type} {next : σ → ι → Option σ} {step : σ → ε → σ → Prop} {init : σ}
    {items : List ι} (hstep : ∀ i ∈ items, ∀ s s', next s i = some s' → ∃ e, step s e s')
    {trace : List (ε × σ)} {s s' : σ} (h : Run step init trace s)
    (hitems : items.foldlM next s = some s') : ∃ more, Run step init (trace ++ more) s' := by
  induction items generalizing trace s with
  | nil =>
    cases hitems
    exact ⟨[], by rwa [List.append_nil]⟩
  | cons i items ih =>
    rw [List.foldlM_cons] at hitems
    cases hnext : next s i with
    | none => simp [hnext] at hitems
    | some t =>
      rw [hnext] at hitems
      obtain ⟨e, he⟩ := hstep i (by simp) s t hnext
      obtain ⟨more, hmore⟩ := ih (fun i hi => hstep i (by simp [hi])) (h.snoc he) hitems
      exact ⟨(e, t) :: more, by simpa using hmore⟩

section Fold
variable (step : σ → ε → σ)

/-- `P` holds in every state visited from `s` on. -/
def AllStates (P : σ → Prop) : σ → List ε → Prop
  | s, [] => P s
  | s, e :: es => P s ∧ AllStates P (step s e) es

/-- Every step from `s` on meets `C`. -/
def AllSteps (C : σ → ε → Prop) : σ → List ε → Prop
  | _, [] => True
  | s, e :: es => C s e ∧ AllSteps C (step s e) es

variable {step}

instance AllSteps.decidable {C : σ → ε → Prop} [∀ s e, Decidable (C s e)] :
    ∀ s es, Decidable (AllSteps step C s es)
  | _, [] => inferInstanceAs (Decidable True)
  | s, e :: es => @instDecidableAnd _ _ inferInstance (AllSteps.decidable (step s e) es)

theorem AllStates.head {P : σ → Prop} {s : σ} {es : List ε} (h : AllStates step P s es) : P s := by
  cases es with
  | nil => exact h
  | cons e es => exact h.1

theorem AllStates.last {P : σ → Prop} {s : σ} {es : List ε} (h : AllStates step P s es) :
    P (es.foldl step s) := by
  induction es generalizing s with
  | nil => exact h
  | cons e es ih => exact ih h.2

theorem AllStates.imp {P Q : σ → Prop} (hPQ : ∀ s, P s → Q s) {s : σ} {es : List ε}
    (h : AllStates step P s es) : AllStates step Q s es := by
  induction es generalizing s with
  | nil => exact hPQ s h
  | cons e es ih => exact ⟨hPQ s h.1, ih h.2⟩

theorem allSteps_congr {C C' : σ → ε → Prop} (h : ∀ s e, C s e ↔ C' s e) {s : σ} {es : List ε} :
    AllSteps step C s es ↔ AllSteps step C' s es := by
  induction es generalizing s with
  | nil => exact Iff.rfl
  | cons e es ih => exact and_congr (h s e) ih

/-- What every step keeps holds in every state visited. -/
theorem allStates_of_preserved {P : σ → Prop} (hstep : ∀ s e, P s → P (step s e)) {s : σ}
    (hs : P s) (es : List ε) : AllStates step P s es := by
  induction es generalizing s with
  | nil => exact hs
  | cons e es ih => exact ⟨hs, ih (hstep s e hs)⟩

/-- Steps from states with `P` meet a condition that follows from what such runs keep. -/
theorem AllStates.allSteps {inv P : σ → Prop} {C : σ → ε → Prop}
    (hinv : ∀ s e, inv s → P s → inv (step s e)) (hstep : ∀ s e, inv s → P s → C s e) {s : σ}
    {es : List ε} (h : AllStates step P s es) (hs : inv s) : AllSteps step C s es := by
  induction es generalizing s with
  | nil => trivial
  | cons e es ih => exact ⟨hstep s e hs h.1, ih h.2 (hinv s e hs h.1)⟩

/-- Runs keep `P` exactly when each of their steps meets the step's condition `C`; `inv` is
what every run keeps. -/
theorem allStates_iff_allSteps (inv : σ → Prop) {P : σ → Prop} {C : σ → ε → Prop}
    (hinv : ∀ s e, inv s → inv (step s e))
    (hstep : ∀ s e, inv s → P s → (P (step s e) ↔ C s e)) {s : σ} (hs : inv s) (hP : P s)
    (es : List ε) : AllStates step P s es ↔ AllSteps step C s es := by
  induction es generalizing s with
  | nil => exact ⟨fun _ => trivial, fun _ => hP⟩
  | cons e es ih =>
    constructor
    · rintro ⟨_, hrest⟩
      exact ⟨(hstep s e hs hP).mp hrest.head, (ih (hinv s e hs) hrest.head).mp hrest⟩
    · rintro ⟨hc, hrest⟩
      exact ⟨hP, (ih (hinv s e hs) ((hstep s e hs hP).mpr hc)).mpr hrest⟩

end Fold

end Promscale.Lib
