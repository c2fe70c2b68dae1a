import Mathlib.Data.List.Basic

/-!
# Caches that forget the least recently used

A cache of bounded size keeps its entries in the order of their use. What holds of every entry
that is put in holds of every entry that is found, whatever has been forgotten in between.
-/
namespace Promscale.Lib

/-- The operations of a cache with entries in `α`. -/
structure LruCache (α : Type) where
  Cache : Type
  empty : Cache
  /-- The entries, the most recently used one first. -/
  entries : Cache → List α
  find : (α → Bool) → Cache → Option α × Cache
  insert : α → Cache → Cache

namespace LruCache

/-- The documented behaviour: the first entry that is met is found and moved to the front, a new
one becomes the front, and the back is removed from a full cache. -/
structure Documented {α : Type} (lru : LruCache α) (capacity : Nat) : Prop where
  entries_empty : lru.entries lru.empty = []
  found : ∀ p c, (lru.find p c).1 = (lru.entries c).find? p
  touched : ∀ p c e, (lru.find p c).1 = some e →
    lru.entries (lru.find p c).2 = e :: (lru.entries c).eraseP p
  untouched : ∀ p c, (lru.find p c).1 = none → lru.entries (lru.find p c).2 = lru.entries c
  inserted : ∀ e c, lru.entries (lru.insert e c) = (e :: lru.entries c).take capacity

namespace Documented

variable {α : Type} {lru : LruCache α} {capacity : Nat} (h : lru.Documented capacity)
  {p : α → Bool} {c c' : lru.Cache} {e : α}

include h

theorem mem_of_found (hfind : (lru.find p c).1 = some e) : e ∈ lru.entries c ∧ p e = true := by
  rw [h.found] at hfind
  exact ⟨List.mem_of_find?_eq_some hfind, List.find?_some hfind⟩

theorem not_of_missed (hfind : (lru.find p c).1 = none) : ∀ e ∈ lru.entries c, p e = false := by
  rw [h.found, List.find?_eq_none] at hfind
  intro e he
  exact Bool.eq_false_iff.mpr (hfind e he)

/-- A search loses no entry and adds none. -/
theorem perm_find (p : α → Bool) (c : lru.Cache) :
    (lru.entries (lru.find p c).2).Perm (lru.entries c) := by
  cases hfind : (lru.find p c).1 with
  | none =>
    rw [h.untouched p c hfind]
  | some e =>
    rw [h.touched p c e hfind]
    rw [h.found] at hfind
    obtain ⟨hp, front, back, hsplit, hfront⟩ := List.find?_eq_some_iff_append.mp hfind
    have hfront' : ∀ a ∈ front, ¬ p a = true := fun a ha => by simpa using hfront a ha
    rw [hsplit, List.eraseP_append_right _ hfront', List.eraseP_cons_of_pos hp]
    exact List.perm_middle.symm

theorem mem_inserted {e' : α} (hmem : e' ∈ lru.entries (lru.insert e c)) :
    e' = e ∨ e' ∈ lru.entries c := by
  rw [h.inserted] at hmem
  exact List.mem_cons.mp (List.mem_of_mem_take hmem)

theorem length_inserted : (lru.entries (lru.insert e c)).length ≤ capacity := by
  rw [h.inserted]
  exact List.length_take_le _ _

/-- Entries of different keys stay so when a new key is put in. -/
theorem nodup_inserted {κ : Type} {key : α → κ} (hnodup : ((lru.entries c).map key).Nodup)
    (hnew : ∀ e' ∈ lru.entries c, key e' ≠ key e) :
    ((lru.entries (lru.insert e c)).map key).Nodup := by
  rw [h.inserted]
  have hcons : ((e :: lru.entries c).map key).Nodup := by
    rw [List.map_cons, List.nodup_cons]
    refine ⟨?_, hnodup⟩
    intro hmem
    obtain ⟨e', he', hkey⟩ := List.mem_map.mp hmem
    exact hnew e' he' hkey
  exact hcons.sublist ((List.take_sublist _ _).map key)

/-! Two caches with the same entries cannot be told apart. -/

theorem found_congr (p : α → Bool) (hsame : lru.entries c = lru.entries c') :
    (lru.find p c).1 = (lru.find p c').1 := by
  rw [h.found, h.found, hsame]

theorem find_congr (p : α → Bool) (hsame : lru.entries c = lru.entries c') :
    lru.entries (lru.find p c).2 = lru.entries (lru.find p c').2 := by
  cases hfind : (lru.find p c).1 with
  | none =>
    rw [h.untouched p c hfind, h.untouched p c' ((h.found_congr p hsame).symm.trans hfind), hsame]
  | some e =>
    rw [h.touched p c e hfind, h.touched p c' e ((h.found_congr p hsame).symm.trans hfind), hsame]

theorem insert_congr (hsame : lru.entries c = lru.entries c') :
    lru.entries (lru.insert e c) = lru.entries (lru.insert e c') := by
  rw [h.inserted, h.inserted, hsame]

end Documented

/-- A cache that is the list of its entries. -/
def ofList (α : Type) (capacity : Nat) : LruCache α where
  Cache := List α
  empty := []
  entries c := c
  find p c := (c.find? p, (c.find? p).toList ++ c.eraseP p)
  insert e c := (e :: c).take capacity

theorem documented_ofList (α : Type) (capacity : Nat) :
    (ofList α capacity).Documented capacity where
  entries_empty := rfl
  found _ _ := rfl
  touched p c e hfind := by
    change (List.find? p c).toList ++ List.eraseP p c = e :: List.eraseP p c
    rw [show List.find? p c = some e from hfind]
    rfl
  untouched p c hfind := by
    have hnone : List.find? p c = none := hfind
    change (List.find? p c).toList ++ List.eraseP p c = c
    rw [hnone]
    exact List.eraseP_of_forall_not (List.find?_eq_none.mp hnone)
  inserted _ _ := rfl

end LruCache

end Promscale.Lib
