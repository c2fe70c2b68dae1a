import Mathlib.Data.List.Pairwise
import Mathlib.Logic.Function.Basic

/-!
# Tables under constraints

A table is a list of rows each of which passes its checks and no two of which violate
its unique constraints. Statements can only build such lists: an insert that would
violate a unique constraint does nothing.
-/
namespace Promscale.Lib

/-- The constraints of a table: which pairs of rows it cannot hold together, and which
rows at all. -/
structure Constraints (ρ : Type) where
  conflict : ρ → ρ → Bool
  symm : ∀ a b, conflict a b = conflict b a
  check : ρ → Bool

structure Table (ρ : Type) (k : Constraints ρ) where
  rows : List ρ
  unique : rows.Pairwise fun a b => k.conflict a b = false
  checked : ∀ r ∈ rows, k.check r = true

namespace Table

variable {ρ : Type} {k : Constraints ρ}

def empty : Table ρ k := ⟨[], .nil, by simp⟩

/-- `INSERT .. ON CONFLICT DO NOTHING` of a row that passes the checks; `none` when
nothing was inserted. -/
def insert (t : Table ρ k) (row : ρ) (hcheck : k.check row = true) : Option (Table ρ k) :=
  if h : ∀ r ∈ t.rows, k.conflict r row = false then
    some {
      rows := t.rows ++ [row]
      unique := by
        rw [List.pairwise_append]
        refine ⟨t.unique, List.pairwise_singleton _ _, ?_⟩
        intro a ha b hb
        rw [List.mem_singleton.mp hb]
        exact h a ha
      checked := by
        intro r hr
        rcases List.mem_append.mp hr with hr | hr
        · exact t.checked r hr
        · rw [List.mem_singleton.mp hr]
          exact hcheck }
  else none

/-- `DELETE .. WHERE p` -/
def delete (t : Table ρ k) (p : ρ → Bool) : Table ρ k where
  rows := t.rows.filter fun r => !p r
  unique := t.unique.sublist List.filter_sublist
  checked r hr := t.checked r (List.mem_filter.mp hr).1

/-- An `UPDATE` that leaves the constrained columns alone. -/
def update (t : Table ρ k) (f : ρ → ρ) (hconflict : ∀ a b, k.conflict (f a) (f b) = k.conflict a b)
    (hcheck : ∀ r, k.check (f r) = k.check r) : Table ρ k where
  rows := t.rows.map f
  unique := by
    rw [List.pairwise_map]
    exact t.unique.imp fun {a b} h => (hconflict a b).trans h
  checked r hr := by
    obtain ⟨a, ha, rfl⟩ := List.mem_map.mp hr
    rw [hcheck]
    exact t.checked a ha

theorem eq_of_rows {t t' : Table ρ k} (h : t.rows = t'.rows) : t = t' := by
  cases t
  cases h
  rfl

@[simp] theorem rows_empty : (empty : Table ρ k).rows = [] := rfl

@[simp] theorem mem_delete (t : Table ρ k) (p : ρ → Bool) (r : ρ) :
    r ∈ (t.delete p).rows ↔ r ∈ t.rows ∧ p r = false := by
  simp [delete]

@[simp] theorem mem_update (t : Table ρ k) (f : ρ → ρ)
    (hconflict : ∀ a b, k.conflict (f a) (f b) = k.conflict a b)
    (hcheck : ∀ r, k.check (f r) = k.check r) (r : ρ) :
    r ∈ (t.update f hconflict hcheck).rows ↔ ∃ a ∈ t.rows, f a = r := by
  simp [update]

theorem insert_eq_some_iff (t t' : Table ρ k) (row : ρ) (hcheck : k.check row = true) :
    t.insert row hcheck = some t' ↔
      (∀ r ∈ t.rows, k.conflict r row = false) ∧ t'.rows = t.rows ++ [row] := by
  unfold insert
  split
  · rename_i h
    constructor
    · intro heq
      cases heq
      exact ⟨h, rfl⟩
    · rintro ⟨_, hrows⟩
      obtain ⟨rows, unique, checked⟩ := t'
      cases hrows
      rfl
  · rename_i h
    constructor
    · intro heq
      cases heq
    · rintro ⟨hfree, _⟩
      exact absurd hfree h

theorem mem_insert {t t' : Table ρ k} {row : ρ} {hcheck : k.check row = true}
    (h : t.insert row hcheck = some t') (r : ρ) : r ∈ t'.rows ↔ r ∈ t.rows ∨ r = row := by
  rw [((insert_eq_some_iff t t' row hcheck).mp h).2, List.mem_append, List.mem_singleton]

theorem insert_eq_none_iff (t : Table ρ k) (row : ρ) (hcheck : k.check row = true) :
    t.insert row hcheck = none ↔ ∃ r ∈ t.rows, k.conflict r row = true := by
  unfold insert
  split <;> rename_i h <;> simpa using h

/-- Rows that are inserted one after another, none of them in conflict. -/
theorem foldlM_insert {t : Table ρ k} {rows : List ρ} (hcheck : ∀ r, k.check r = true)
    (hfree : ∀ a ∈ t.rows, ∀ b ∈ rows, k.conflict a b = false)
    (hunique : rows.Pairwise fun a b => k.conflict a b = false) :
    ∃ t', rows.foldlM (fun t r => t.insert r (hcheck r)) t = some t' ∧
      t'.rows = t.rows ++ rows := by
  induction rows generalizing t with
  | nil => exact ⟨t, rfl, (List.append_nil _).symm⟩
  | cons r rows ih =>
    obtain ⟨hfirst, hrest⟩ := List.pairwise_cons.mp hunique
    cases hinsert : t.insert r (hcheck r) with
    | none =>
      obtain ⟨a, ha, hconflict⟩ := (insert_eq_none_iff t r (hcheck r)).mp hinsert
      rw [hfree a ha r List.mem_cons_self] at hconflict
      cases hconflict
    | some t₁ =>
      have hrows := ((insert_eq_some_iff t t₁ r (hcheck r)).mp hinsert).2
      have hfree₁ : ∀ a ∈ t₁.rows, ∀ b ∈ rows, k.conflict a b = false := by
        intro a ha b hb
        rcases (mem_insert hinsert a).mp ha with ha | rfl
        · exact hfree a ha b (List.mem_cons_of_mem r hb)
        · exact hfirst b hb
      obtain ⟨t', hfold, hrows'⟩ := ih hfree₁ hrest
      refine ⟨t', ?_, ?_⟩
      · rw [List.foldlM_cons, hinsert]
        exact hfold
      · rw [hrows', hrows, List.append_assoc]
        rfl

/-- Two rows that would violate a constraint together are one row. -/
theorem eq_of_conflict (t : Table ρ k) {a b : ρ} (ha : a ∈ t.rows) (hb : b ∈ t.rows)
    (h : k.conflict a b = true) : a = b := by
  by_contra hne
  have : Std.Symm fun a b => k.conflict a b = false := ⟨fun a b hab => by rwa [k.symm]⟩
  rw [t.unique.forall ha hb hne] at h
  cases h

/-- Looking up by a key the constraints make unique. -/
theorem find?_eq_some_of_mem (t : Table ρ k) {p : ρ → Bool} {a : ρ} (ha : a ∈ t.rows)
    (hp : p a = true) (hkey : ∀ r, p r = true → k.conflict r a = true) :
    t.rows.find? p = some a := by
  cases hfind : t.rows.find? p with
  | none =>
    have := List.find?_eq_none.mp hfind a ha
    exact absurd hp this
  | some r =>
    have hr := List.find?_some hfind
    rw [t.eq_of_conflict (List.mem_of_find?_eq_some hfind) ha (hkey r hr)]

/-- The only row that meets a condition the constraints let one row meet. -/
theorem filter_eq_singleton (t : Table ρ k) {p : ρ → Bool} {a : ρ} (ha : a ∈ t.rows)
    (hp : p a = true) (hkey : ∀ x y, p x = true → p y = true → k.conflict x y = true) :
    t.rows.filter p = [a] := by
  have hmem : a ∈ t.rows.filter p := List.mem_filter.mpr ⟨ha, hp⟩
  have hunique := t.unique.sublist (@List.filter_sublist _ p _)
  match hrows : t.rows.filter p with
  | [] =>
    rw [hrows] at hmem
    cases hmem
  | [x] =>
    rw [hrows] at hmem
    rw [List.mem_singleton.mp hmem]
  | x :: y :: rest =>
    have hpx : p x = true := (List.mem_filter.mp (hrows ▸ List.mem_cons_self)).2
    have hpy : p y = true :=
      (List.mem_filter.mp (hrows ▸ List.mem_cons_of_mem _ List.mem_cons_self)).2
    rw [hrows] at hunique
    have hfree := (List.pairwise_cons.mp hunique).1 y List.mem_cons_self
    rw [hkey x y hpx hpy] at hfree
    cases hfree

/-- What a row is joined with by `LEFT OUTER JOIN .. ON`. -/
def leftJoin (t : Table ρ k) (on : ρ → Bool) : List (Option ρ) :=
  match t.rows.filter on with
  | [] => [none]
  | matched => matched.map some

theorem leftJoin_eq_some (t : Table ρ k) {on : ρ → Bool} {a : ρ} (ha : a ∈ t.rows)
    (hon : on a = true) (hkey : ∀ x y, on x = true → on y = true → k.conflict x y = true) :
    t.leftJoin on = [some a] := by
  rw [leftJoin, t.filter_eq_singleton ha hon hkey]
  rfl

/-- Where the constraints let one row meet the condition, the join has one row. -/
theorem leftJoin_unique (t : Table ρ k) {on : ρ → Bool}
    (hkey : ∀ x y, on x = true → on y = true → k.conflict x y = true) :
    ∃ matched, t.leftJoin on = [matched] ∧ ∀ a ∈ t.rows, on a = true → matched = some a := by
  by_cases hmet : ∃ a ∈ t.rows, on a = true
  · obtain ⟨a, ha, hon⟩ := hmet
    refine ⟨some a, t.leftJoin_eq_some ha hon hkey, fun b hb hon' => ?_⟩
    rw [t.eq_of_conflict ha hb (hkey a b hon hon')]
  · refine ⟨none, ?_, fun a ha hon => absurd ⟨a, ha, hon⟩ hmet⟩
    have hrows : t.rows.filter on = [] :=
      List.filter_eq_nil_iff.mpr fun a ha hon => hmet ⟨a, ha, hon⟩
    rw [leftJoin, hrows]

theorem leftJoin_eq_none (t : Table ρ k) {on : ρ → Bool} (h : ∀ r, on r = false) :
    t.leftJoin on = [none] := by
  have hrows : t.rows.filter on = [] := List.filter_eq_nil_iff.mpr (by simp [h])
  rw [leftJoin, hrows]

end Table

/-! ## Families of tables -/

section
variable {α β : Type} [DecidableEq α]

/-- `Function.update` without its cast, which is slow to evaluate. -/
def assign (f : α → β) (a : α) (b : β) (a' : α) : β :=
  if a' = a then b else f a'

theorem assign_eq_update (f : α → β) (a : α) (b : β) : assign f a b = Function.update f a b := by
  funext a'
  rw [Function.update_apply, assign]

@[simp] theorem assign_self (a : α) (b : β) (f : α → β) : assign f a b a = b :=
  if_pos rfl

@[simp] theorem assign_of_ne {a a' : α} (h : a' ≠ a) (b : β) (f : α → β) :
    assign f a b a' = f a' :=
  if_neg h

theorem assign_eq_self (a : α) (f : α → β) : assign f a (f a) = f := by
  rw [assign_eq_update, Function.update_eq_self]

end

end Promscale.Lib
