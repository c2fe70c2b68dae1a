import Mathlib.Data.List.Nodup
import Promscale.Jsonb.IterableJsonb

/-!
# Equal values have equal tokens, and only they

Two jsonb values are equal when their scalars are, element by element in arrays and as
maps in objects. Objects list their members by some fixed order of the keys, so equal
objects list equal keys in one order; the tokens are then a pre-order walk in which each
value can be told from what follows it.
-/
namespace Promscale.Jsonb

open Promscale.Aggregates (Raise)

variable {N : Type}

section Equality
variable (numericEq : N → N → Prop)

def Scalar.Equal : Scalar N → Scalar N → Prop
  | .null, .null => True
  | .bool a, .bool b => a = b
  | .string s, .string t => s = t
  | .numeric m, .numeric n => numericEq m n
  | _, _ => False

mutual

/-- Equality of jsonb values. -/
def Value.Equal : Value N → Value N → Prop
  | .scalar s, .scalar t => s.Equal numericEq t
  | .array xs, .array ys => elementsEqual xs ys
  | .object ms, .object ns =>
    (∀ k, k ∈ ms.map Prod.fst ↔ k ∈ ns.map Prod.fst) ∧ membersEqual ms ns
  | _, _ => False

def Value.elementsEqual : List (Value N) → List (Value N) → Prop
  | [], [] => True
  | x :: xs, y :: ys => x.Equal y ∧ elementsEqual xs ys
  | _, _ => False

/-- Every member of the first object has an equal one under its key in the second. -/
def Value.membersEqual : List (PgText × Value N) → List (PgText × Value N) → Prop
  | [], _ => True
  | (k, v) :: ms, ns => (∃ w, (k, w) ∈ ns ∧ v.Equal w) ∧ membersEqual ms ns

end

end Equality

/-- The order Postgres keeps the keys of an object in: shorter ones first. -/
def PgText.lengthThenBytes (s t : PgText) : Prop :=
  s.bytes.length < t.bytes.length ∨ s.bytes.length = t.bytes.length ∧ s.bytes < t.bytes

instance (s t : PgText) : Decidable (s.lengthThenBytes t) := inferInstanceAs (Decidable (_ ∨ _))

theorem PgText.lengthThenBytes_asymm (s t : PgText) (h : s.lengthThenBytes t) :
    ¬ t.lengthThenBytes s := by
  rintro (hlt | ⟨heq, hlt⟩) <;> rcases h with hlt' | ⟨heq', hlt'⟩
  · omega
  · omega
  · omega
  · exact List.lt_asymm hlt hlt'

section Canonical
variable (keyLt : PgText → PgText → Prop)

mutual

/-- The members of every object stand in the order `keyLt` of their keys. -/
def Value.Canonical : Value N → Prop
  | .scalar _ => True
  | .array xs => elementsCanonical xs
  | .object ms => (ms.map Prod.fst).Pairwise keyLt ∧ membersCanonical ms

def Value.elementsCanonical : List (Value N) → Prop
  | [] => True
  | x :: xs => x.Canonical ∧ elementsCanonical xs

def Value.membersCanonical : List (PgText × Value N) → Prop
  | [] => True
  | (_, v) :: ms => v.Canonical ∧ membersCanonical ms

end

end Canonical

/-- Ordered lists with the same elements are the same list. -/
theorem eq_of_same_members {α : Type} {lt : α → α → Prop}
    (hasymm : ∀ a b, lt a b → ¬ lt b a) {xs ys : List α} (hxs : xs.Pairwise lt)
    (hys : ys.Pairwise lt) (hsame : ∀ a, a ∈ xs ↔ a ∈ ys) : xs = ys := by
  have hne : ∀ {a b}, lt a b → a ≠ b := by
    rintro a b hab rfl
    exact hasymm a a hab hab
  have hperm : xs.Perm ys :=
    (List.perm_ext_iff_of_nodup (hxs.imp hne) (hys.imp hne)).mpr hsame
  exact hperm.eq_of_pairwise (fun a b _ _ hab hba => absurd hba (hasymm a b hab)) hxs hys

/-- Under distinct keys, the members of equal objects correspond one to one. -/
private theorem membersEqual_iff_forall₂ {numericEq : N → N → Prop}
    {ms ns : List (PgText × Value N)} (hkeys : ms.map Prod.fst = ns.map Prod.fst)
    (hnodup : (ns.map Prod.fst).Nodup) : Value.membersEqual numericEq ms ns ↔
      List.Forall₂ (fun m n => m.1 = n.1 ∧ m.2.Equal numericEq n.2) ms ns := by
  -- the members already passed stay in front
  suffices h : ∀ (front : List (PgText × Value N)) (ms ns : List (PgText × Value N)),
      ms.map Prod.fst = ns.map Prod.fst → ((front ++ ns).map Prod.fst).Nodup →
      (Value.membersEqual numericEq ms (front ++ ns) ↔
        List.Forall₂ (fun m n => m.1 = n.1 ∧ m.2.Equal numericEq n.2) ms ns) by
    exact h [] ms ns hkeys hnodup
  intro front ms
  induction ms generalizing front with
  | nil =>
    intro ns hkeys _
    have : ns = [] := by simpa using hkeys.symm
    subst this
    simp [Value.membersEqual]
  | cons m ms ih =>
    intro ns hkeys hnodup
    obtain ⟨k, v⟩ := m
    cases ns with
    | nil => simp at hkeys
    | cons n ns =>
      obtain ⟨k', w⟩ := n
      obtain ⟨rfl, hrest⟩ : k = k' ∧ ms.map Prod.fst = ns.map Prod.fst := by simpa using hkeys
      have hassoc : front ++ (k, w) :: ns = front ++ [(k, w)] ++ ns := by simp
      have hunique : ∀ u, (k, u) ∈ front ++ (k, w) :: ns → u = w := by
        intro u hu
        rw [List.map_append, List.map_cons] at hnodup
        have hk := (List.nodup_cons.mp (List.nodup_middle.mp hnodup)).1
        obtain ⟨hkfront, hkns⟩ := not_or.mp (mt List.mem_append.mpr hk)
        rcases List.mem_append.mp hu with hu | hu
        · exact absurd (List.mem_map_of_mem (f := Prod.fst) hu) hkfront
        · rcases List.mem_cons.mp hu with hu | hu
          · exact (Prod.mk.inj hu).2
          · exact absurd (List.mem_map_of_mem (f := Prod.fst) hu) hkns
      rw [Value.membersEqual, List.forall₂_cons, hassoc,
        ih (front ++ [(k, w)]) ns hrest (by rwa [← hassoc]), ← hassoc]
      constructor
      · rintro ⟨⟨u, hu, heq⟩, hms⟩
        rw [hunique u hu] at heq
        exact ⟨⟨rfl, heq⟩, hms⟩
      · rintro ⟨⟨_, heq⟩, hms⟩
        exact ⟨⟨w, by simp, heq⟩, hms⟩

-- the linter misses uses inside a mutual block
set_option linter.unusedSectionVars false

section Tokens
variable (numericNormalize : N → PgText)

def Scalar.token : Scalar N → Token
  | null => .null
  | bool b => .bool b
  | string s => .string s
  | numeric n => .numeric (numericNormalize n)

mutual

/-- The tokens of a value, in pre-order. -/
def Value.preorder : Value N → List Token
  | .scalar s => [s.token numericNormalize]
  | .array xs => .beginArray :: (elementsPreorder xs ++ [.endArray])
  | .object ms => .beginObject :: (membersPreorder ms ++ [.endObject])

def Value.elementsPreorder : List (Value N) → List Token
  | [] => []
  | x :: xs => x.preorder ++ elementsPreorder xs

def Value.membersPreorder : List (PgText × Value N) → List Token
  | [] => []
  | (k, v) :: ms => .key k :: (v.preorder ++ membersPreorder ms)

end

variable {numericNormalize} {numericEq : N → N → Prop} {keyLt : PgText → PgText → Prop}
variable (hnormalize : ∀ m n, numericNormalize m = numericNormalize n ↔ numericEq m n)
variable (hasymm : ∀ s t, keyLt s t → ¬ keyLt t s)

theorem Scalar.token_eq_iff (hnormalize : ∀ m n, numericNormalize m = numericNormalize n ↔
    numericEq m n) (s t : Scalar N) :
    s.token numericNormalize = t.token numericNormalize ↔ s.Equal numericEq t := by
  cases s <;> cases t <;> simp [Scalar.token, Scalar.Equal, hnormalize]

variable (numericNormalize) in
/-- What a value starts with is no end of a container and no key. -/
theorem Value.preorder_head (v : Value N) : ∃ t rest, v.preorder numericNormalize = t :: rest ∧
    t ≠ .endArray ∧ t ≠ .endObject := by
  cases v with
  | scalar s => cases s <;> exact ⟨_, _, rfl, by simp [Scalar.token], by simp [Scalar.token]⟩
  | array xs => exact ⟨_, _, rfl, by simp, by simp⟩
  | object ms => exact ⟨_, _, rfl, by simp, by simp⟩

/-- A canonical object has each key once. -/
private theorem nodup_of_canonical (hasymm : ∀ s t, keyLt s t → ¬ keyLt t s)
    {ms : List (PgText × Value N)} (h : (ms.map Prod.fst).Pairwise keyLt) :
    (ms.map Prod.fst).Nodup := by
  apply h.imp
  rintro a b hab rfl
  exact hasymm a a hab hab

include hnormalize hasymm in
mutual

/-- A value is read off the front of a token stream in one way only. -/
theorem Value.preorder_unique : ∀ (v w : Value N) (r s : List Token), w.Canonical keyLt →
    v.preorder numericNormalize ++ r = w.preorder numericNormalize ++ s →
    v.Equal numericEq w ∧ r = s
  | .scalar a, w, r, s, _, h => by
    cases w with
    | scalar b =>
      obtain ⟨hab, hrs⟩ := List.cons.inj h
      exact ⟨(Scalar.token_eq_iff hnormalize a b).mp hab, hrs⟩
    | array ys => cases a <;> exact absurd (List.cons.inj h).1 (by simp [Scalar.token])
    | object ns => cases a <;> exact absurd (List.cons.inj h).1 (by simp [Scalar.token])
  | .array xs, w, r, s, hw, h => by
    cases w with
    | scalar b => cases b <;> exact absurd (List.cons.inj h).1 (by simp [Scalar.token])
    | array ys =>
      rw [preorder, preorder, List.cons_append, List.cons_append, List.append_assoc,
        List.append_assoc] at h
      exact Value.elementsPreorder_unique xs ys r s hw (List.cons.inj h).2
    | object ns => exact absurd (List.cons.inj h).1 (by simp)
  | .object ms, w, r, s, hw, h => by
    cases w with
    | scalar b => cases b <;> exact absurd (List.cons.inj h).1 (by simp [Scalar.token])
    | array ys => exact absurd (List.cons.inj h).1 (by simp)
    | object ns =>
      rw [preorder, preorder, List.cons_append, List.cons_append, List.append_assoc,
        List.append_assoc] at h
      obtain ⟨hms, hrs⟩ := Value.membersPreorder_unique ms ns r s hw.2 (List.cons.inj h).2
      have hkeys : ms.map Prod.fst = ns.map Prod.fst := by
        rw [← List.forall₂_eq_eq_eq, List.forall₂_map_left_iff, List.forall₂_map_right_iff]
        exact hms.imp fun _ _ hmn => hmn.1
      refine ⟨⟨fun k => by rw [hkeys], ?_⟩, hrs⟩
      exact (membersEqual_iff_forall₂ hkeys (nodup_of_canonical hasymm hw.1)).mpr hms

theorem Value.elementsPreorder_unique : ∀ (xs ys : List (Value N)) (r s : List Token),
    elementsCanonical keyLt ys →
    elementsPreorder numericNormalize xs ++ (.endArray :: r) =
      elementsPreorder numericNormalize ys ++ (.endArray :: s) →
    elementsEqual numericEq xs ys ∧ r = s
  | [], ys, r, s, _, h => by
    cases ys with
    | nil => exact ⟨trivial, (List.cons.inj h).2⟩
    | cons y ys =>
      obtain ⟨t, rest, ht, hend, _⟩ := y.preorder_head numericNormalize
      rw [elementsPreorder, elementsPreorder, ht] at h
      exact absurd (List.cons.inj h).1.symm hend
  | x :: xs, ys, r, s, hys, h => by
    cases ys with
    | nil =>
      obtain ⟨t, rest, ht, hend, _⟩ := x.preorder_head numericNormalize
      rw [elementsPreorder, elementsPreorder, ht] at h
      exact absurd (List.cons.inj h).1 hend
    | cons y ys =>
      rw [elementsPreorder, elementsPreorder, List.append_assoc, List.append_assoc] at h
      obtain ⟨hxy, hrest⟩ := Value.preorder_unique x y _ _ hys.1 h
      obtain ⟨hxs, hrs⟩ := Value.elementsPreorder_unique xs ys r s hys.2 hrest
      exact ⟨⟨hxy, hxs⟩, hrs⟩

theorem Value.membersPreorder_unique : ∀ (ms ns : List (PgText × Value N)) (r s : List Token),
    membersCanonical keyLt ns →
    membersPreorder numericNormalize ms ++ (.endObject :: r) =
      membersPreorder numericNormalize ns ++ (.endObject :: s) →
    List.Forall₂ (fun m n => m.1 = n.1 ∧ m.2.Equal numericEq n.2) ms ns ∧ r = s
  | [], ns, r, s, _, h => by
    cases ns with
    | nil => exact ⟨.nil, (List.cons.inj h).2⟩
    | cons n ns => exact absurd (List.cons.inj h).1 (by simp)
  | (k, v) :: ms, ns, r, s, hns, h => by
    cases ns with
    | nil => exact absurd (List.cons.inj h).1 (by simp)
    | cons n ns =>
      obtain ⟨k', w⟩ := n
      rw [membersPreorder, membersPreorder, List.cons_append, List.cons_append,
        List.append_assoc, List.append_assoc] at h
      obtain ⟨hk, hbody⟩ := List.cons.inj h
      obtain ⟨hvw, hrest⟩ := Value.preorder_unique v w _ _ hns.1 hbody
      obtain ⟨hms, hrs⟩ := Value.membersPreorder_unique ms ns r s hns.2 hrest
      exact ⟨.cons ⟨Token.key.inj hk, hvw⟩ hms, hrs⟩

end

include hnormalize hasymm in
mutual

/-- Equal values have equal tokens. -/
theorem Value.preorder_congr : ∀ (v w : Value N), v.Canonical keyLt → w.Canonical keyLt →
    v.Equal numericEq w → v.preorder numericNormalize = w.preorder numericNormalize
  | .scalar a, .scalar b, _, _, h => by
    rw [preorder, preorder, (Scalar.token_eq_iff hnormalize a b).mpr h]
  | .array xs, .array ys, hv, hw, h => by
    rw [preorder, preorder, Value.elementsPreorder_congr xs ys hv hw h]
  | .object ms, .object ns, hv, hw, h => by
    have hkeys := eq_of_same_members hasymm hv.1 hw.1 h.1
    have hms := (membersEqual_iff_forall₂ hkeys (nodup_of_canonical hasymm hw.1)).mp h.2
    rw [preorder, preorder, Value.membersPreorder_congr ms ns hv.2 hw.2 hms]

theorem Value.elementsPreorder_congr : ∀ (xs ys : List (Value N)), elementsCanonical keyLt xs →
    elementsCanonical keyLt ys → elementsEqual numericEq xs ys →
    elementsPreorder numericNormalize xs = elementsPreorder numericNormalize ys
  | [], [], _, _, _ => rfl
  | x :: xs, y :: ys, hxs, hys, h => by
    rw [elementsPreorder, elementsPreorder, Value.preorder_congr x y hxs.1 hys.1 h.1,
      Value.elementsPreorder_congr xs ys hxs.2 hys.2 h.2]

theorem Value.membersPreorder_congr : ∀ (ms ns : List (PgText × Value N)),
    membersCanonical keyLt ms → membersCanonical keyLt ns →
    List.Forall₂ (fun m n => m.1 = n.1 ∧ m.2.Equal numericEq n.2) ms ns →
    membersPreorder numericNormalize ms = membersPreorder numericNormalize ns
  | [], [], _, _, _ => rfl
  | (k, v) :: ms, (k', w) :: ns, hms, hns, h => by
    obtain ⟨⟨hk, hvw⟩, hrest⟩ := List.forall₂_cons.mp h
    rw [membersPreorder, membersPreorder, show k = k' from hk,
      Value.preorder_congr v w hms.1 hns.1 hvw,
      Value.membersPreorder_congr ms ns hms.2 hns.2 hrest]

end

include hnormalize hasymm in
/-- Values with canonical objects are equal exactly when their tokens are. -/
theorem Value.preorder_eq_iff (v w : Value N) (hv : v.Canonical keyLt) (hw : w.Canonical keyLt) :
    v.preorder numericNormalize = w.preorder numericNormalize ↔ v.Equal numericEq w := by
  constructor
  · intro h
    exact (Value.preorder_unique hnormalize hasymm v w [] [] hw (by rw [h])).1
  · exact Value.preorder_congr hnormalize hasymm v w hv hw

end Tokens

end Promscale.Jsonb
