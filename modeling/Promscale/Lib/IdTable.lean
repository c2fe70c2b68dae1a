import Promscale.Lib.Table

/-!
# Tables that number their rows

A table whose ids come from a sequence, and what a function that looks a row up and makes it
when it is missing does to it. Whether such a function finds again what it has made depends
on its lookup alone: it does when the lookup accepts the row it makes.
-/
namespace Promscale.Lib

structure IdTable (ρ : Type) (k : Constraints ρ) where
  table : Table ρ k
  seq : Nat

namespace IdTable

variable {ρ ε : Type} {k : Constraints ρ}

def find? (t : IdTable ρ k) (p : ρ → Bool) : Option ρ :=
  t.table.rows.find? p

/-- An insert of the row under the next id; `none` when it is in conflict with another row. -/
def insertNext (hcheck : ∀ r, k.check r = true) (t : IdTable ρ k) (row : Nat → ρ) :
    Option (IdTable ρ k) :=
  (t.table.insert (row (t.seq + 1)) (hcheck _)).map fun table => ⟨table, t.seq + 1⟩

/-- Selects the id of a row; if there is none, inserts it, and if that is in conflict with a
row, selects again. `refuse` is the error an insert would end in for another reason. -/
def intern (hcheck : ∀ r, k.check r = true) (refuse : Option ε) (noDataFound : ε) (id : ρ → Nat)
    (t : IdTable ρ k) (p : ρ → Bool) (row : Nat → ρ) : Except ε (Nat × IdTable ρ k) :=
  match t.find? p, refuse with
  | some r, _ => .ok (id r, t)
  | none, some e => .error e
  | none, none =>
    match t.insertNext hcheck row with
    | some t' => .ok (t.seq + 1, t')
    | none =>
      match t.find? p with
      | some r => .ok (id r, { t with seq := t.seq + 1 })
      | none => .error noDataFound

theorem exists_find? {t : IdTable ρ k} {p : ρ → Bool} {r : ρ} (hr : r ∈ t.table.rows)
    (hp : p r = true) : ∃ r' ∈ t.table.rows, p r' = true ∧ t.find? p = some r' := by
  cases hfind : t.find? p with
  | none => exact absurd hp (List.find?_eq_none.mp hfind r hr)
  | some r' => exact ⟨r', List.mem_of_find?_eq_some hfind, List.find?_some hfind, rfl⟩

theorem insertNext_eq_some {hcheck : ∀ r, k.check r = true} {t t' : IdTable ρ k} {row : Nat → ρ}
    (h : t.insertNext hcheck row = some t') :
    (∀ r ∈ t.table.rows, k.conflict r (row t'.seq) = false) ∧
      t'.table.rows = t.table.rows ++ [row t'.seq] ∧ t'.seq = t.seq + 1 := by
  obtain ⟨table, hinsert, rfl⟩ := Option.map_eq_some_iff.mp h
  obtain ⟨hfree, hrows⟩ := (Table.insert_eq_some_iff _ _ _ _).mp hinsert
  exact ⟨hfree, hrows, rfl⟩

/-- What an interning function has done when it returns the id `i`. -/
inductive InternEffect (id : ρ → Nat) (t : IdTable ρ k) (p : ρ → Bool) (row : Nat → ρ) (i : Nat)
    (t' : IdTable ρ k) : Prop
  | found (r : ρ) (hr : r ∈ t.table.rows) (hp : p r = true) (hi : id r = i) (ht : t' = t)
  | made (hmissing : ∀ r ∈ t.table.rows, p r = false) (hi : i = t.seq + 1) (hseq : t'.seq = i)
      (hrows : t'.table.rows = t.table.rows ++ [row i])
      (hfree : ∀ r ∈ t.table.rows, k.conflict r (row i) = false)

theorem intern_returns {hcheck : ∀ r, k.check r = true} {refuse : Option ε} {noDataFound : ε}
    {id : ρ → Nat} {t t' : IdTable ρ k} {p : ρ → Bool} {row : Nat → ρ} {i : Nat}
    (h : t.intern hcheck refuse noDataFound id p row = .ok (i, t')) :
    InternEffect id t p row i t' := by
  unfold intern at h
  split at h
  · rename_i r hfind
    cases h
    exact .found r (List.mem_of_find?_eq_some hfind) (List.find?_some hfind) rfl rfl
  · cases h
  · rename_i hnone
    have hmissing : ∀ r ∈ t.table.rows, p r = false := by
      intro r hr
      simpa using List.find?_eq_none.mp hnone r hr
    split at h
    · rename_i t₁ hinsert
      cases h
      obtain ⟨hfree, hrows, hseq⟩ := insertNext_eq_some hinsert
      rw [hseq] at hfree hrows
      exact .made hmissing rfl hseq hrows hfree
    · rw [hnone] at h
      cases h

/-- A row that is there is found, and nothing changes. -/
theorem intern_finds {hcheck : ∀ r, k.check r = true} {refuse : Option ε} {noDataFound : ε}
    {id : ρ → Nat} {t : IdTable ρ k} {p : ρ → Bool} {row : Nat → ρ} {r : ρ}
    (hr : r ∈ t.table.rows) (hp : p r = true)
    (hunique : ∀ r' ∈ t.table.rows, p r' = true → id r' = id r) :
    t.intern hcheck refuse noDataFound id p row = .ok (id r, t) := by
  obtain ⟨r', hr', hp', hfind⟩ := exists_find? hr hp
  unfold intern
  rw [hfind, ← hunique r' hr' hp']

/-- No id is past the sequence. -/
def WellNumbered (id : ρ → Nat) (t : IdTable ρ k) : Prop :=
  ∀ r ∈ t.table.rows, id r ≤ t.seq

namespace InternEffect

variable {id : ρ → Nat} {t t' : IdTable ρ k} {p : ρ → Bool} {row : Nat → ρ} {i : Nat}

theorem subset (h : InternEffect id t p row i t') : t.table.rows ⊆ t'.table.rows := by
  cases h with
  | found r _ _ _ ht => rw [ht]; exact List.Subset.refl _
  | made _ _ _ hrows _ => rw [hrows]; exact List.subset_append_left _ _

theorem old_or_made (h : InternEffect id t p row i t') {r : ρ} (hr : r ∈ t'.table.rows) :
    r ∈ t.table.rows ∨ r = row i := by
  cases h with
  | found r _ _ _ ht => exact .inl (ht ▸ hr)
  | made _ _ _ hrows _ => simpa [hrows] using hr

/-- The id is that of a row the lookup accepts, if it accepts the row it makes. -/
theorem mem (h : InternEffect id t p row i t') (hid : ∀ n, id (row n) = n)
    (hp : ∀ n, p (row n) = true) : ∃ r ∈ t'.table.rows, p r = true ∧ id r = i := by
  cases h with
  | found r hr hp hi ht => exact ⟨r, ht ▸ hr, hp, hi⟩
  | made _ _ _ hrows _ => exact ⟨row i, by simp [hrows], hp i, hid i⟩

theorem wellNumbered (h : InternEffect id t p row i t') (hid : ∀ n, id (row n) = n)
    (ht : t.WellNumbered id) : t'.WellNumbered id := by
  intro r hr
  cases h with
  | found _ _ _ _ heq => exact heq ▸ ht r (heq ▸ hr)
  | made _ hi hseq hrows _ =>
    rw [hrows, List.mem_append, List.mem_singleton] at hr
    rcases hr with hr | rfl
    · have := ht r hr
      omega
    · exact Nat.le_of_eq ((hid i).trans hseq.symm)

end InternEffect

end IdTable

end Promscale.Lib
