import Mathlib.Data.List.Forall2

/-!
# Programs over a state, with errors

What a program ensures when it returns: an error rolls back and is not spoken of. The
rules follow the shape of the program, so a function's specification is assembled from
those of the statements it is made of.
-/
namespace Promscale.Lib

/-- A program that reads and changes a state and may fail. -/
abbrev Prog (σ ε α : Type) := StateT σ (Except ε) α

variable {σ ε α β : Type}

/-- Started in `s`, the program satisfies `post` when it returns. -/
def Ensures (x : Prog σ ε α) (s : σ) (post : α → σ → Prop) : Prop :=
  ∀ a s', x.run s = .ok (a, s') → post a s'

namespace Ensures

theorem pure {a : α} {s : σ} {post : α → σ → Prop} (h : post a s) :
    Ensures (Pure.pure a : Prog σ ε α) s post := by
  intro b s' hrun
  cases hrun
  exact h

theorem bind {x : Prog σ ε α} {f : α → Prog σ ε β} {s : σ} {post : β → σ → Prop}
    (h : Ensures x s fun a t => Ensures (f a) t post) : Ensures (x >>= f) s post := by
  intro b s' hrun
  rw [StateT.run_bind] at hrun
  cases hx : x.run s with
  | error e =>
    rw [hx] at hrun
    cases hrun
  | ok p =>
    rw [hx] at hrun
    exact h p.1 p.2 hx b s' hrun

theorem mono {x : Prog σ ε α} {s : σ} {post post' : α → σ → Prop} (h : Ensures x s post)
    (himp : ∀ a t, post a t → post' a t) : Ensures x s post' :=
  fun a s' hrun => himp a s' (h a s' hrun)

theorem and {x : Prog σ ε α} {s : σ} {post post' : α → σ → Prop} (h : Ensures x s post)
    (h' : Ensures x s post') : Ensures x s fun a t => post a t ∧ post' a t :=
  fun a s' hrun => ⟨h a s' hrun, h' a s' hrun⟩

theorem get {s : σ} {post : σ → σ → Prop} (h : post s s) :
    Ensures (MonadState.get : Prog σ ε σ) s post := by
  intro a s' hrun
  cases hrun
  exact h

theorem set {s t : σ} {post : PUnit → σ → Prop} (h : post ⟨⟩ t) :
    Ensures (MonadStateOf.set t : Prog σ ε PUnit) s post := by
  intro a s' hrun
  cases hrun
  exact h

theorem modifyState {s : σ} {f : σ → σ} {post : PUnit → σ → Prop} (h : post ⟨⟩ (f s)) :
    Ensures (modify f : Prog σ ε PUnit) s post := by
  intro a s' hrun
  cases hrun
  exact h

theorem throw {e : ε} {s : σ} {post : α → σ → Prop} :
    Ensures (MonadExcept.throw e : Prog σ ε α) s post := by
  intro a s' hrun
  cases hrun

/-- A loop over a list that collects results: each round starts where `inv` holds of what
was collected so far, and keeps it. -/
theorem mapM {f : α → Prog σ ε β} (inv : List α → List β → σ → Prop) {todo : List α} {s : σ}
    (hstep : ∀ done a rest bs t, todo = done ++ a :: rest → inv done bs t →
      Ensures (f a) t fun b t' => inv (done ++ [a]) (bs ++ [b]) t')
    (hinit : inv [] [] s) : Ensures (todo.mapM f) s fun bs t => inv todo bs t := by
  suffices h : ∀ (done rest : List α) (bs : List β) (t : σ), todo = done ++ rest → inv done bs t →
      Ensures (rest.mapM f) t fun bs' t' => inv todo (bs ++ bs') t' by
    exact h [] todo [] s rfl hinit
  intro done rest
  induction rest generalizing done with
  | nil =>
    intro bs t htodo hinv
    rw [List.mapM_nil]
    apply Ensures.pure
    rw [List.append_nil] at htodo
    rw [List.append_nil, htodo]
    exact hinv
  | cons a rest ih =>
    intro bs t htodo hinv
    rw [List.mapM_cons]
    apply Ensures.bind
    refine (hstep done a rest bs t htodo hinv).mono ?_
    intro b t' hinv'
    apply Ensures.bind
    refine (ih (done ++ [a]) (bs ++ [b]) t' (by simp [htodo]) hinv').mono ?_
    intro bs' t'' hinv''
    apply Ensures.pure
    simpa using hinv''

/-- A loop whose results stand in a relation to their arguments that later rounds keep. -/
theorem mapM_forall₂ {f : α → Prog σ ε β} (reached : σ → Prop) (rel : σ → α → β → Prop)
    {as : List α} {s : σ} (hinit : reached s)
    (hstep : ∀ a ∈ as, ∀ t, reached t → Ensures (f a) t fun b t' =>
      reached t' ∧ rel t' a b ∧ ∀ a b, rel t a b → rel t' a b) :
    Ensures (as.mapM f) s fun bs t => reached t ∧ List.Forall₂ (rel t) as bs := by
  refine mapM (fun done bs t => reached t ∧ List.Forall₂ (rel t) done bs) ?_ ⟨hinit, .nil⟩
  rintro done a rest bs t rfl ⟨hreached, hdone⟩
  refine (hstep a (by simp) t hreached).mono ?_
  rintro b t' ⟨hreached', hab, hkept⟩
  refine ⟨hreached', List.rel_append (hdone.imp hkept) (.cons hab .nil)⟩

end Ensures

/-! ## Frames -/

/-- Whatever state it starts in, the program leaves what `f` reads of it as it was. -/
def Frame {τ : Type} (f : σ → τ) (x : Prog σ ε α) : Prop :=
  ∀ s, Ensures x s fun _ s' => f s' = f s

namespace Frame

variable {τ : Type} {f : σ → τ}

theorem of_same {x : Prog σ ε α} (h : ∀ s, Ensures x s fun _ s' => s' = s) : Frame f x :=
  fun s => (h s).mono fun _ _ hsame => congrArg f hsame

theorem pure (a : α) : Frame f (Pure.pure a : Prog σ ε α) :=
  fun _ => Ensures.pure rfl

theorem bind {x : Prog σ ε α} {k : α → Prog σ ε β} (hx : Frame f x) (hk : ∀ a, Frame f (k a)) :
    Frame f (x >>= k) := by
  intro s
  apply Ensures.bind
  refine (hx s).mono ?_
  intro a t ht
  refine (hk a t).mono ?_
  intro _ u hu
  exact hu.trans ht

theorem mapM {g : α → Prog σ ε β} (hg : ∀ a, Frame f (g a)) (as : List α) :
    Frame f (as.mapM g) := by
  induction as with
  | nil => exact Frame.pure []
  | cons a as ih =>
    rw [List.mapM_cons]
    exact (hg a).bind fun b => ih.bind fun bs => Frame.pure (b :: bs)

end Frame

/-! ## Invariants -/

/-- Where the invariant holds, it holds again when the program returns. -/
def Preserves (inv : σ → Prop) (x : Prog σ ε α) : Prop :=
  ∀ s, inv s → Ensures x s fun _ s' => inv s'

namespace Preserves

variable {inv : σ → Prop}

theorem pure (a : α) : Preserves inv (Pure.pure a : Prog σ ε α) :=
  fun _ hinv => Ensures.pure hinv

theorem get : Preserves inv (MonadState.get : Prog σ ε σ) :=
  fun _ hinv => Ensures.get hinv

theorem throw (e : ε) : Preserves inv (MonadExcept.throw e : Prog σ ε α) :=
  fun _ _ => Ensures.throw

theorem bind {x : Prog σ ε α} {k : α → Prog σ ε β} (hx : Preserves inv x)
    (hk : ∀ a, Preserves inv (k a)) : Preserves inv (x >>= k) := by
  intro s hinv
  apply Ensures.bind
  refine (hx s hinv).mono ?_
  intro a t hinv'
  exact hk a t hinv'

theorem mapM {g : α → Prog σ ε β} (hg : ∀ a, Preserves inv (g a)) (as : List α) :
    Preserves inv (as.mapM g) := by
  induction as with
  | nil => exact Preserves.pure []
  | cons a as ih =>
    rw [List.mapM_cons]
    exact (hg a).bind fun b => ih.bind fun bs => Preserves.pure (b :: bs)

end Preserves

theorem run_bind_of_ok {x : Prog σ ε α} {s t : σ} {a : α} (h : x.run s = .ok (a, t))
    (f : α → Prog σ ε β) : (x >>= f).run s = (f a).run t := by
  rw [StateT.run_bind, h]
  rfl

/-- A loop of programs that return where they started returns there too. -/
theorem mapM_returns {f : α → Prog σ ε β} {as : List α} {s : σ}
    (h : ∀ a ∈ as, ∃ b, (f a).run s = .ok (b, s)) : ∃ bs, (as.mapM f).run s = .ok (bs, s) := by
  induction as with
  | nil => exact ⟨[], rfl⟩
  | cons a as ih =>
    obtain ⟨b, hb⟩ := h a (by simp)
    obtain ⟨bs, hbs⟩ := ih fun a ha => h a (by simp [ha])
    refine ⟨b :: bs, ?_⟩
    rw [List.mapM_cons, run_bind_of_ok hb, run_bind_of_ok hbs]
    rfl

/-- Whether a program returns and the check holds then. -/
def leaves (x : Prog σ ε α) (s : σ) (check : α → σ → Bool) : Bool :=
  match x.run s with
  | .ok (a, t) => check a t
  | .error _ => false

theorem exists_of_leaves {x : Prog σ ε α} {s : σ} {check : α → σ → Bool}
    (h : leaves x s check = true) : ∃ a t, x.run s = .ok (a, t) ∧ check a t = true := by
  unfold leaves at h
  split at h
  · rename_i a t hrun
    exact ⟨a, t, hrun, h⟩
  · cases h

end Promscale.Lib
