import Promscale.Lib.IdTable

/-!
# Numbered tables whose rows carry a bitmap

A writer names a row and bits to set in it. It makes the row when it is missing and sets the
bits when the row has none of them. So a row has all bits it was given exactly as long as
every writer brings bits it has none of, or all of.
-/
namespace Promscale.Lib

/-- Where the rows of a table have their id and their bitmap, which no constraint is about. -/
structure Bitmapped {ρ : Type} (k : Constraints ρ) (w : Nat) where
  id : ρ → Nat
  bits : ρ → BitVec w
  setBits : ρ → BitVec w → ρ
  id_setBits : ∀ r m, id (setBits r m) = id r
  bits_setBits : ∀ r m, bits (setBits r m) = m
  setBits_bits : ∀ r, setBits r (bits r) = r
  setBits_setBits : ∀ r m n, setBits (setBits r m) n = setBits r n
  conflict_setBits : ∀ a b m n, k.conflict (setBits a m) (setBits b n) = k.conflict a b
  check_setBits : ∀ r m, k.check (setBits r m) = k.check r

namespace Bitmapped

variable {ρ ε : Type} {k : Constraints ρ} {w : Nat} (b : Bitmapped k w)

/-- The row after `SET bits = bits | m`, where `p` holds. -/
def orRow (p : ρ → Bool) (m : BitVec w) (r : ρ) : ρ :=
  b.setBits r (if p r then b.bits r ||| m else b.bits r)

/-- `UPDATE .. SET bits = bits | m WHERE p` -/
def orInto (t : Table ρ k) (p : ρ → Bool) (m : BitVec w) : Table ρ k :=
  t.update (b.orRow p m) (fun _ _ => b.conflict_setBits _ _ _ _) fun _ => b.check_setBits _ _

/-- Selects a row; if there is one and it has none of the bits of `m`, sets them. If there is
none, inserts one, the bits being set instead in a row that is in conflict at `target`, and
selects again. Without a `row` to insert nothing is. -/
def put (hcheck : ∀ r, k.check r = true) (uniqueViolation noDataFound : ε) (t : IdTable ρ k)
    (p target : ρ → Bool) (row : Option (Nat → ρ)) (m : BitVec w) : Except ε (ρ × IdTable ρ k) :=
  match t.find? p with
  | some r =>
    .ok (r, if b.bits r &&& m = 0 then { t with table := b.orInto t.table (b.id · = b.id r) m }
      else t)
  | none =>
    let inserted : Except ε (IdTable ρ k) :=
      match row with
      | none => .ok t
      | some row =>
        match t.insertNext hcheck row with
        | some t' => .ok t'
        | none =>
          if t.table.rows.any target then
            .ok ⟨b.orInto t.table (fun r => target r && b.bits r &&& m = 0) m, t.seq + 1⟩
          else .error uniqueViolation
    match inserted with
    | .error e => .error e
    | .ok t' =>
      match t'.find? p with
      | some r => .ok (r, t')
      | none => .error noDataFound

@[simp] theorem id_orRow (p : ρ → Bool) (m : BitVec w) (r : ρ) : b.id (b.orRow p m r) = b.id r :=
  b.id_setBits _ _

theorem bits_orRow (p : ρ → Bool) (m : BitVec w) (r : ρ) :
    b.bits (b.orRow p m r) = if p r then b.bits r ||| m else b.bits r :=
  b.bits_setBits _ _

@[simp] theorem rows_orInto (t : Table ρ k) (p : ρ → Bool) (m : BitVec w) :
    (b.orInto t p m).rows = t.rows.map (b.orRow p m) := rfl

/-- What a writer has done when it returns the row `r`. -/
inductive PutEffect (t : IdTable ρ k) (p : ρ → Bool) (row : Option (Nat → ρ)) (m : BitVec w)
    (r : ρ) (t' : IdTable ρ k) : Prop
  | found (hr : r ∈ t.table.rows) (hp : p r = true) (hseq : t'.seq = t.seq)
      (hrows : t'.table.rows = if b.bits r &&& m = 0 then
        t.table.rows.map (b.orRow (b.id · = b.id r) m) else t.table.rows)
  | made (row' : Nat → ρ) (hrow : row' ∈ row) (hr : r = row' (t.seq + 1))
      (hmissing : ∀ r' ∈ t.table.rows, p r' = false) (hseq : t'.seq = t.seq + 1)
      (hrows : t'.table.rows = t.table.rows ++ [r])
      (hfree : ∀ r' ∈ t.table.rows, k.conflict r' r = false)

variable {b}

/-- `p` is about what no writer changes. -/
theorem put_returns {hcheck : ∀ r, k.check r = true} {uniqueViolation noDataFound : ε}
    {t t' : IdTable ρ k} {p target : ρ → Bool} {row : Option (Nat → ρ)} {m : BitVec w} {r : ρ}
    (hp : ∀ r n, p (b.setBits r n) = p r) (hrow : ∀ row' ∈ row, ∀ n, p (row' n) = true)
    (h : b.put hcheck uniqueViolation noDataFound t p target row m = .ok (r, t')) :
    b.PutEffect t p row m r t' := by
  unfold put at h
  split at h
  · rename_i r' hfind
    cases h
    refine .found (List.mem_of_find?_eq_some hfind) (List.find?_some hfind) ?_ ?_ <;>
      split <;> rfl
  · rename_i hnone
    have hmissing : ∀ r ∈ t.table.rows, p r = false := by
      intro r hr
      simpa using List.find?_eq_none.mp hnone r hr
    cases row with
    | none =>
      simp only [hnone] at h
      cases h
    | some row =>
      cases hinsert : t.insertNext hcheck row with
      | none =>
        -- setting bits brings no row that was missing
        have hstill : ∀ (q : ρ → Bool) (seq : Nat),
            IdTable.find? ⟨b.orInto t.table q m, seq⟩ p = none := by
          intro q seq
          rw [IdTable.find?, List.find?_eq_none, rows_orInto]
          intro r hr
          obtain ⟨r', hr', rfl⟩ := List.mem_map.mp hr
          rw [orRow, hp, hmissing r' hr']
          simp
        simp only [hinsert] at h
        split at h
        · cases h
        · rename_i hok
          split at hok
          · cases hok
            rw [hstill] at h
            cases h
          · cases hok
      | some t₁ =>
        obtain ⟨hfree, hrows, hseq⟩ := IdTable.insertNext_eq_some hinsert
        have hfind : t₁.find? p = some (row (t.seq + 1)) := by
          have hold : t.table.rows.find? p = none := hnone
          rw [IdTable.find?, hrows, List.find?_append, hold, ← hseq]
          simp [hrow row rfl]
        simp only [hinsert, hfind] at h
        cases h
        rw [hseq] at hfree hrows
        exact .made row rfl rfl hmissing hseq hrows hfree

/-- A writer that finds a row returns it. -/
theorem put_of_find {hcheck : ∀ r, k.check r = true} {uniqueViolation noDataFound : ε}
    {t : IdTable ρ k} {p target : ρ → Bool} {row : Option (Nat → ρ)} {m : BitVec w} {r : ρ}
    (h : t.find? p = some r) : b.put hcheck uniqueViolation noDataFound t p target row m =
      .ok (r, if b.bits r &&& m = 0 then { t with table := b.orInto t.table (b.id · = b.id r) m }
        else t) := by
  unfold put
  rw [h]

/-- All rows of a table are in another, but for their bits. -/
def Persist (b : Bitmapped k w) (t t' : IdTable ρ k) : Prop :=
  ∀ r ∈ t.table.rows, ∃ m, b.setBits r m ∈ t'.table.rows

theorem Persist.refl (t : IdTable ρ k) : b.Persist t t :=
  fun r hr => ⟨b.bits r, by rwa [b.setBits_bits]⟩

theorem Persist.trans {t t' t'' : IdTable ρ k} (h : b.Persist t t') (h' : b.Persist t' t'') :
    b.Persist t t'' := by
  intro r hr
  obtain ⟨m, hm⟩ := h r hr
  obtain ⟨n, hn⟩ := h' _ hm
  exact ⟨n, by rwa [b.setBits_setBits] at hn⟩

namespace PutEffect

variable {t t' : IdTable ρ k} {p : ρ → Bool} {row : Option (Nat → ρ)} {m : BitVec w} {r : ρ}

theorem persist (h : b.PutEffect t p row m r t') : b.Persist t t' := by
  intro r' hr'
  cases h with
  | found _ _ _ hrows =>
    rw [hrows]
    split
    · exact ⟨_, List.mem_map_of_mem hr'⟩
    · exact ⟨b.bits r', by rwa [b.setBits_bits]⟩
  | made _ _ _ _ _ hrows _ =>
    rw [hrows]
    exact ⟨b.bits r', by rw [b.setBits_bits]; exact List.mem_append_left _ hr'⟩

/-- Every row was there, but for its bits, or is the one returned. -/
theorem old_or_made (h : b.PutEffect t p row m r t') {r' : ρ} (hr' : r' ∈ t'.table.rows) :
    (∃ r₀ ∈ t.table.rows, ∃ n, r' = b.setBits r₀ n) ∨ r' = r ∧ ∃ row' ∈ row, r = row' t'.seq := by
  have hold : r' ∈ t.table.rows → ∃ r₀ ∈ t.table.rows, ∃ n, r' = b.setBits r₀ n :=
    fun h => ⟨r', h, b.bits r', (b.setBits_bits r').symm⟩
  cases h with
  | found _ _ _ hrows =>
    rw [hrows] at hr'
    split at hr'
    · obtain ⟨r₀, hr₀, rfl⟩ := List.mem_map.mp hr'
      exact .inl ⟨r₀, hr₀, _, rfl⟩
    · exact .inl (hold hr')
  | made row' hrow hr _ hseq hrows _ =>
    rw [hrows, List.mem_append, List.mem_singleton] at hr'
    rcases hr' with hr' | hr'
    · exact .inl (hold hr')
    · exact .inr ⟨hr', row', hrow, by rw [hr, hseq]⟩

theorem wellNumbered (h : b.PutEffect t p row m r t') (hrow : ∀ row' ∈ row, ∀ n, b.id (row' n) = n)
    (ht : t.WellNumbered b.id) : t'.WellNumbered b.id := by
  intro r' hr'
  have hseq : t.seq ≤ t'.seq := by
    cases h with
    | found _ _ hseq _ => exact Nat.le_of_eq hseq.symm
    | made _ _ _ _ hseq _ _ => omega
  rcases h.old_or_made hr' with ⟨r₀, hr₀, n, rfl⟩ | ⟨rfl, row', hmem, rfl⟩
  · rw [b.id_setBits]
    exact Nat.le_trans (ht r₀ hr₀) hseq
  · exact Nat.le_of_eq (hrow row' hmem _)

/-- The returned row is in the table, but for its bits. -/
theorem mem (h : b.PutEffect t p row m r t') (hrow : ∀ row' ∈ row, ∀ n, p (row' n) = true) :
    p r = true ∧ ∃ n, b.setBits r n ∈ t'.table.rows := by
  have hpersist := h.persist
  cases h with
  | found hr hp _ _ => exact ⟨hp, hpersist r hr⟩
  | made row' hmem hr _ _ hrows _ =>
    refine ⟨hr ▸ hrow row' hmem _, b.bits r, ?_⟩
    rw [hrows, b.setBits_bits]
    simp

/-- If the bits of every row are those `g` says it was given, they still are after a writer has
brought `m` exactly when `m` was disjoint from the bits of the writer's row or contained in
them. -/
theorem given_iff (h : b.PutEffect t p row m r t') (g : ρ → BitVec w)
    (hp : ∀ r n, p (b.setBits r n) = p r) (hg : ∀ r n, g (b.setBits r n) = g r)
    (hrow : ∀ row' ∈ row, ∀ n, p (row' n) = true ∧ b.bits (row' n) = m)
    (hone : ∀ r₁ ∈ t.table.rows, ∀ r₂ ∈ t.table.rows, p r₁ = true → p r₂ = true → r₁ = r₂)
    (hid : ∀ r₁ ∈ t.table.rows, ∀ r₂ ∈ t.table.rows, b.id r₁ = b.id r₂ → r₁ = r₂)
    (hnone : (∀ r' ∈ t.table.rows, p r' = false) → ∀ r', p r' = true → g r' = 0)
    (hgiven : ∀ r' ∈ t.table.rows, b.bits r' = g r') :
    (∀ r' ∈ t'.table.rows, b.bits r' = if p r' then g r' ||| m else g r') ↔
      ∀ r' ∈ t.table.rows, p r' = true → b.bits r' &&& m = 0 ∨ b.bits r' ||| m = b.bits r' := by
  cases h with
  | found hr hpr _ hrows =>
    have hother : ∀ r' ∈ t.table.rows, r' ≠ r → p r' = false := by
      intro r' hr' hne
      by_contra hpr'
      exact hne (hone r' hr' r hr (by simpa using hpr') hpr)
    by_cases hdisjoint : b.bits r &&& m = 0
    · rw [if_pos hdisjoint] at hrows
      constructor
      · intro _ r' hr' hpr'
        rw [hone r' hr' r hr hpr' hpr]
        exact .inl hdisjoint
      · intro _ r' hr'
        rw [hrows] at hr'
        obtain ⟨r₀, hr₀, rfl⟩ := List.mem_map.mp hr'
        rw [b.bits_orRow, orRow, hp, hg, hgiven r₀ hr₀]
        by_cases hsame : r₀ = r
        · subst hsame
          simp [hpr]
        · have hne : b.id r₀ ≠ b.id r := fun heq => hsame (hid r₀ hr₀ r hr heq)
          simp [hother r₀ hr₀ hsame, hne]
    · rw [if_neg hdisjoint] at hrows
      rw [hrows]
      constructor
      · intro hall r' hr' hpr'
        have := hall r' hr'
        rw [if_pos hpr', ← hgiven r' hr'] at this
        exact .inr this.symm
      · intro hall r' hr'
        by_cases hpr' : p r' = true
        · obtain rfl := hone r' hr' r hr hpr' hpr
          rw [if_pos hpr', ← hgiven r' hr']
          exact ((hall r' hr' hpr').resolve_left hdisjoint).symm
        · rw [if_neg hpr']
          exact hgiven r' hr'
  | made row' hmem hr hmissing _ hrows _ =>
    constructor
    · intro _ r' hr' hpr'
      rw [hmissing r' hr'] at hpr'
      cases hpr'
    · intro _ r' hr'
      rw [hrows, List.mem_append, List.mem_singleton] at hr'
      rcases hr' with hr' | rfl
      · rw [hmissing r' hr', if_neg (by simp)]
        exact hgiven r' hr'
      · obtain ⟨hpr, hbits⟩ := hrow row' hmem (t.seq + 1)
        rw [← hr] at hpr hbits
        rw [if_pos hpr, hnone hmissing r' hpr, hbits]
        exact BitVec.zero_or.symm

end PutEffect

end Bitmapped

end Promscale.Lib
