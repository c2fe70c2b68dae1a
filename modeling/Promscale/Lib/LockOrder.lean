import Mathlib.Data.List.Basic
import Mathlib.Logic.Function.Basic
import Mathlib.Logic.Relation

/-!
# Two parties that lock in an order

Each of two parties takes locks one after the other, waits for a lock that the other one holds, and
keeps what it has until it ends. They come to wait for each other only if two locks stand in
opposite orders in what they take.
-/
namespace Promscale.Lib.LockOrder

variable {κ : Type}

inductive Party (κ : Type) where
  | active (held todo : List κ)
  | ended

namespace Party

def held : Party κ → List κ
  | active held _ => held
  | ended => []

/-- The lock a party is about to take. -/
def next : Party κ → Option κ
  | active _ (x :: _) => some x
  | _ => none

end Party

/-- The two parties. -/
abbrev Parties (κ : Type) := Bool → Party κ

/-- A party takes its next lock, or ends, with all its locks taken or before. -/
inductive Step : Parties κ → Parties κ → Prop
  | take {s : Parties κ} {i : Bool} {x : κ} {held todo : List κ}
      (hi : s i = .active held (x :: todo)) (hfree : x ∉ (s !i).held) :
      Step s (Function.update s i (.active (held ++ [x]) todo))
  | finish {s : Parties κ} (i : Bool) : Step s (Function.update s i .ended)

/-- The locks of the one and of the other. -/
def orders (l l' : List κ) : Bool → List κ
  | false => l
  | true => l'

/-- Neither has taken a lock of those it is going to take. -/
def start (orders : Bool → List κ) : Parties κ := fun i => .active [] (orders i)

abbrev Reaches : Parties κ → Parties κ → Prop := Relation.ReflTransGen Step

def Waits (s : Parties κ) (i : Bool) : Prop := ∃ x, (s i).next = some x ∧ x ∈ (s !i).held

/-- Each waits for the other. -/
def Deadlocked (s : Parties κ) : Prop := ∀ i, Waits s i

/-- No two elements stand in opposite orders. -/
def SameOrder (l l' : List κ) : Prop := ∀ x y, [x, y].Sublist l → ¬ [y, x].Sublist l'

/-! ## What a party holds -/

/-- What an active party holds and what it is still to take are its locks, in order. -/
def Keeps (orders : Bool → List κ) (s : Parties κ) : Prop :=
  ∀ i held todo, s i = .active held todo → held ++ todo = orders i

theorem start_keeps (orders : Bool → List κ) : Keeps orders (start orders) := by
  intro i held todo h
  cases h
  rfl

theorem Step.keeps {orders : Bool → List κ} {s s' : Parties κ} (hstep : Step s s')
    (h : Keeps orders s) : Keeps orders s' := by
  intro j held' todo' hj
  cases hstep with
  | take hi hfree =>
    rename_i i x held todo
    by_cases hji : j = i
    · subst hji
      rw [Function.update_self] at hj
      cases hj
      have hbefore := h j _ _ hi
      rwa [List.append_assoc]
    · rw [Function.update_of_ne hji] at hj
      exact h j held' todo' hj
  | finish i =>
    by_cases hji : j = i
    · subst hji
      rw [Function.update_self] at hj
      cases hj
    · rw [Function.update_of_ne hji] at hj
      exact h j held' todo' hj

theorem Reaches.keeps {orders : Bool → List κ} {s s' : Parties κ} (hreach : Reaches s s')
    (h : Keeps orders s) : Keeps orders s' := by
  induction hreach with
  | refl => exact h
  | tail _ hstep ih => exact hstep.keeps ih

/-- What a party holds comes before what it is about to take. -/
theorem Keeps.sublist {orders : Bool → List κ} {s : Parties κ} (h : Keeps orders s) {i : Bool}
    {x y : κ} (hheld : x ∈ (s i).held) (hnext : (s i).next = some y) :
    [x, y].Sublist (orders i) := by
  match hi : s i with
  | .ended =>
    rw [hi] at hheld
    cases hheld
  | .active held [] =>
    rw [hi] at hnext
    cases hnext
  | .active held (z :: todo) =>
    rw [hi] at hheld hnext
    cases hnext
    rw [← h i held (y :: todo) hi]
    have hx : [x].Sublist held := List.singleton_sublist.mpr hheld
    have hy : [y].Sublist (y :: todo) := List.singleton_sublist.mpr List.mem_cons_self
    exact hx.append hy

/-! ## Waiting for each other -/

/-- Who lock in the same order never wait for each other. -/
theorem SameOrder.not_deadlocked {l l' : List κ} (hsame : SameOrder l l') {s : Parties κ}
    (hreach : Reaches (start (orders l l')) s) : ¬ Deadlocked s := by
  intro hdeadlocked
  have hkeeps := hreach.keeps (start_keeps (orders l l'))
  obtain ⟨x, hx, hxheld⟩ := hdeadlocked false
  obtain ⟨y, hy, hyheld⟩ := hdeadlocked true
  exact hsame y x (hkeeps.sublist hyheld hx) (hkeeps.sublist hxheld hy)

/-- A party takes locks that the other one does not hold. -/
theorem reaches_take {s : Parties κ} {i : Bool} {held todo : List κ} (locks : List κ)
    (hi : s i = .active held (locks ++ todo)) (hfree : ∀ x ∈ locks, x ∉ (s !i).held) :
    Reaches s (Function.update s i (.active (held ++ locks) todo)) := by
  induction locks generalizing s held with
  | nil =>
    rw [List.append_nil, ← show s i = .active held todo from hi, Function.update_eq_self]
  | cons x locks ih =>
    have hother : ∀ p, Function.update s i p (!i) = s (!i) :=
      fun p => Function.update_of_ne (by simp) _ _
    have hrest := ih (s := Function.update s i (.active (held ++ [x]) (locks ++ todo)))
      (Function.update_self _ _ _) (by
        rw [hother]
        exact fun y hy => hfree y (List.mem_cons_of_mem _ hy))
    rw [Function.update_idem, List.append_assoc] at hrest
    exact hrest.head (.take hi (hfree x List.mem_cons_self))

/-- Two parties of which each can come to hold what the other one takes next. -/
theorem exists_deadlocked {locks locks' rest rest' : List κ} {x y : κ} (hx : x ∈ locks)
    (hy : y ∈ locks') (hdisjoint : ∀ z ∈ locks', z ∉ locks) :
    ∃ s, Reaches (start (orders (locks ++ y :: rest) (locks' ++ x :: rest'))) s ∧ Deadlocked s := by
  have hfirst := reaches_take
    (s := start (orders (locks ++ y :: rest) (locks' ++ x :: rest'))) (i := false) locks rfl
    (fun _ _ hheld => nomatch hheld)
  have hfree : ∀ z ∈ locks', z ∉ (Function.update
      (start (orders (locks ++ y :: rest) (locks' ++ x :: rest'))) false
      (.active ([] ++ locks) (y :: rest)) !true).held := by
    rw [Bool.not_true, Function.update_self]
    exact hdisjoint
  have hsecond := reaches_take (i := true) locks' rfl hfree
  refine ⟨_, hfirst.trans hsecond, ?_⟩
  rintro (_ | _)
  · exact ⟨y, rfl, hy⟩
  · exact ⟨x, rfl, hx⟩

end Promscale.Lib.LockOrder
