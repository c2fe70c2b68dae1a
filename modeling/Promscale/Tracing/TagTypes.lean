import Promscale.Tracing.Operations

/-!
# The bitmaps of tags and their keys

What the bitmap of a row should be is the bitwise or of what it was at first and of all masks
of the calls about it that have returned. The update in `put_tag_key` and `put_tag` is guarded
by `tag_type & _tag_type = 0`, so it is left out for a mask that brings new types along with
one the row has.
-/
namespace Promscale.Tracing

open Promscale.Lib
open Promscale.Jsonb

variable {N : Type} [JsonbFunctions N]

def orAll (masks : List TagType) : TagType := masks.foldl (· ||| ·) 0

/-- The mask the call passes for the tag key. -/
def TagKey.maskOf (k : TagKey) : TagCall N → TagType
  | .putTagKey key tagType => if k.key = key then tagType else 0
  | .putTag .. => 0

/-- The mask the call passes for the tag. -/
def Tag.maskOf (t : Tag N) : TagCall N → TagType
  | .putTagKey .. => 0
  | .putTag key value tagType => if t.matches key value then tagType else 0

/-- The bitmap of the tag key when `s₀` is where the calls begin and `log` those that have
returned. -/
def TagKey.given (s₀ : State N) (log : List (TagCall N)) (k : TagKey) : TagType :=
  (s₀.tagKey.find? (·.key = k.key)).elim 0 TagKey.tagType ||| orAll (log.map k.maskOf)

def Tag.given (s₀ : State N) (log : List (TagCall N)) (t : Tag N) : TagType :=
  (s₀.tag.find? (·.matches t.key t.value)).elim 0 Tag.tagType ||| orAll (log.map t.maskOf)

/-- The mask of the call is disjoint from the bitmap of the row it is about or contained in it,
if there is a row. -/
def TagCall.Fits (s : State N) : TagCall N → Prop
  | putTagKey key tagType => ∀ k ∈ s.tagKey.table.rows, k.key = key →
      k.tagType &&& tagType = 0 ∨ k.tagType ||| tagType = k.tagType
  | putTag key value tagType => ∀ t ∈ s.tag.table.rows, t.matches key value = true →
      t.tagType &&& tagType = 0 ∨ t.tagType ||| tagType = t.tagType

/-- A state with the calls that have returned. -/
abbrev Logged (N : Type) [JsonbFunctions N] := State N × List (TagCall N)

def tagStep (x : Logged N) (c : TagCall N) : Logged N :=
  match c.run x.1 with
  | .ok (_, s') => (s', x.2 ++ [c])
  | .error _ => x

/-- Every bitmap is what was given. -/
def TagTypesGiven (s₀ : State N) (x : Logged N) : Prop :=
  (∀ k ∈ x.1.tagKey.table.rows, k.tagType = k.given s₀ x.2) ∧
    ∀ t ∈ x.1.tag.table.rows, t.tagType = t.given s₀ x.2

/-- The tag keys and tags of `s` have the same ids in `s'`, where no two rows are for one key
or for one value of one key. -/
def TagIdsKept (s s' : State N) : Prop :=
  (∀ k ∈ s.tagKey.table.rows, ∃ k' ∈ s'.tagKey.table.rows, k'.key = k.key ∧ k'.id = k.id) ∧
    (∀ t ∈ s.tag.table.rows, ∃ t' ∈ s'.tag.table.rows,
      t'.key = t.key ∧ t'.value = t.value ∧ t'.id = t.id) ∧
    (∀ k ∈ s'.tagKey.table.rows, ∀ k' ∈ s'.tagKey.table.rows, k.key = k'.key → k = k') ∧
    ∀ t ∈ s'.tag.table.rows, ∀ t' ∈ s'.tag.table.rows,
      t.key = t'.key → jsonbEq t.value t'.value = true → t = t'

theorem orAll_append (masks : List TagType) (m : TagType) : orAll (masks ++ [m]) = orAll masks ||| m := by
  simp [orAll]

theorem orAll_eq_zero {masks : List TagType} (h : ∀ m ∈ masks, m = 0) : orAll masks = 0 := by
  induction masks with
  | nil => rfl
  | cons m masks ih =>
    have hm : m = 0 := h m List.mem_cons_self
    subst hm
    exact ih fun m hm => h m (List.mem_cons_of_mem _ hm)

theorem TagKey.given_append (s₀ : State N) (log : List (TagCall N)) (c : TagCall N) (k : TagKey) :
    k.given s₀ (log ++ [c]) = k.given s₀ log ||| k.maskOf c := by
  rw [TagKey.given, TagKey.given, List.map_append, List.map_singleton, orAll_append, BitVec.or_assoc]

theorem Tag.given_append (s₀ : State N) (log : List (TagCall N)) (c : TagCall N) (t : Tag N) :
    t.given s₀ (log ++ [c]) = t.given s₀ log ||| t.maskOf c := by
  rw [Tag.given, Tag.given, List.map_append, List.map_singleton, orAll_append, BitVec.or_assoc]

/-- The call's row is there. -/
def TagCall.HasRow (s : State N) : TagCall N → Prop
  | putTagKey key _ => ∃ k ∈ s.tagKey.table.rows, k.key = key
  | putTag key value _ => ∃ t ∈ s.tag.table.rows, t.matches key value = true

theorem TagCall.HasRow.mono {s s' : State N} {c : TagCall N} (h : c.HasRow s)
    (hextends : s.Extends s') : c.HasRow s' := by
  cases c with
  | putTagKey key tagType =>
    obtain ⟨k, hk, hkey⟩ := h
    obtain ⟨m, hm⟩ := hextends.tagKey k hk
    exact ⟨_, hm, hkey⟩
  | putTag key value tagType =>
    obtain ⟨t, ht, hmatches⟩ := h
    obtain ⟨m, hm⟩ := hextends.tag t ht
    exact ⟨_, hm, hmatches⟩

namespace State
variable {s s' : State N} {i : Nat}

/-- A call whose row is there returns. -/
theorem tagCall_returns {c : TagCall N} (h : c.HasRow s) : ∃ i s', c.run s = .ok (i, s') := by
  cases c with
  | putTagKey key tagType =>
    obtain ⟨k, hk, hkey⟩ := h
    obtain ⟨k', _, _, hfind⟩ : ∃ k' ∈ s.tagKey.table.rows, decide (k'.key = key) = true ∧
        s.tagKey.find? (·.key = key) = some k' := IdTable.exists_find? hk (decide_eq_true hkey)
    simp only [TagCall.run, putTagKey, Bitmapped.put_of_find hfind]
    exact ⟨_, _, rfl⟩
  | putTag key value tagType =>
    obtain ⟨t, ht, hmatches⟩ := h
    obtain ⟨t', _, hmatches', hfind⟩ := IdTable.exists_find? ht hmatches
    simp only [TagCall.run, putTag, Bitmapped.put_of_find hfind,
      (Tag.matches_iff.mp hmatches').2, if_true]
    exact ⟨_, _, rfl⟩

theorem tagCall_hasRow {c : TagCall N} (h : c.run s = .ok (i, s')) : c.HasRow s' := by
  cases c with
  | putTagKey key tagType =>
    obtain ⟨k, _, _, hput⟩ := putTagKey_returns h
    obtain ⟨hkey, m, hm⟩ := hput.mem (by simp)
    exact ⟨_, hm, of_decide_eq_true hkey⟩
  | putTag key value tagType =>
    obtain ⟨t, _, _, hput⟩ := putTag_returns h
    obtain ⟨hmatches, m, hm⟩ := hput.mem fun row hrow n => by
      obtain ⟨k, _, rfl⟩ := Option.map_eq_some_iff.mp hrow
      exact Tag.matches_iff.mpr ⟨rfl, jsonbEq_refl value⟩
    exact ⟨_, hm, hmatches⟩

end State

/-- Rows are never lost, and every call that has returned has one. -/
structure LogSound (s₀ : State N) (x : Logged N) : Prop where
  extends_start : s₀.Extends x.1
  hasRow : ∀ c ∈ x.2, c.HasRow x.1

theorem tagStep_logSound {s₀ : State N} {x : Logged N} (h : LogSound s₀ x) (c : TagCall N) :
    LogSound s₀ (tagStep x c) := by
  unfold tagStep
  split
  · rename_i i s' hrun
    have hextends := State.tagCall_extends hrun
    refine ⟨h.extends_start.trans hextends, ?_⟩
    intro c' hc'
    rw [List.mem_append, List.mem_singleton] at hc'
    rcases hc' with hc' | rfl
    · exact (h.hasRow c' hc').mono hextends
    · exact State.tagCall_hasRow hrun
  · exact h

/-- A key without a row was given nothing. -/
theorem TagKey.given_eq_zero {s₀ : State N} {x : Logged N} (h : LogSound s₀ x) {k : TagKey}
    (hnone : ∀ k' ∈ x.1.tagKey.table.rows, k'.key ≠ k.key) : k.given s₀ x.2 = 0 := by
  have hstart : s₀.tagKey.find? (·.key = k.key) = none := by
    rw [IdTable.find?, List.find?_eq_none]
    intro k' hk'
    obtain ⟨m, hm⟩ := h.extends_start.tagKey k' hk'
    exact fun heq => hnone _ hm (of_decide_eq_true heq)
  have hlog : orAll (x.2.map k.maskOf) = 0 := by
    refine orAll_eq_zero fun m hm => ?_
    obtain ⟨c, hc, rfl⟩ := List.mem_map.mp hm
    cases c with
    | putTagKey key tagType =>
      obtain ⟨k', hk', hkey⟩ := h.hasRow _ hc
      exact if_neg fun heq => hnone k' hk' (hkey.trans heq.symm)
    | putTag => rfl
  rw [TagKey.given, hstart, hlog]
  exact BitVec.or_zero

/-- Two tags a lookup accepts are each accepted by a lookup of the other. -/
theorem Tag.matches_trans {t t' : Tag N} {key : TagK} {value : Value N}
    (h : t.matches key value = true) (h' : t'.matches key value = true) :
    t.matches t'.key t'.value = true := by
  rw [Tag.matches_iff] at h h' ⊢
  exact ⟨h.1.trans h'.1.symm, jsonbEq_trans h.2 (jsonbEq_comm value _ ▸ h'.2)⟩

theorem Tag.matches_of_matches {t t' : Tag N} {key : TagK} {value : Value N}
    (h : t'.matches t.key t.value = true) (h' : t.matches key value = true) :
    t'.matches key value = true := by
  rw [Tag.matches_iff] at h h' ⊢
  exact ⟨h.1.trans h'.1, jsonbEq_trans h.2 h'.2⟩

theorem Tag.given_eq_zero {s₀ : State N} {x : Logged N} (h : LogSound s₀ x) {t : Tag N}
    (hnone : ∀ t' ∈ x.1.tag.table.rows, t'.matches t.key t.value = false) :
    t.given s₀ x.2 = 0 := by
  have hstart : s₀.tag.find? (·.matches t.key t.value) = none := by
    rw [IdTable.find?, List.find?_eq_none]
    intro t' ht'
    obtain ⟨m, hm⟩ := h.extends_start.tag t' ht'
    have hfalse : t'.matches t.key t.value = false :=
      hnone (Tag.bitmapped.setBits t' m) hm
    simp [hfalse]
  have hlog : orAll (x.2.map t.maskOf) = 0 := by
    refine orAll_eq_zero fun m hm => ?_
    obtain ⟨c, hc, rfl⟩ := List.mem_map.mp hm
    cases c with
    | putTagKey => rfl
    | putTag key value tagType =>
      obtain ⟨t', ht', hmatches⟩ := h.hasRow _ hc
      refine if_neg fun hsame => ?_
      have htrue := Tag.matches_trans hmatches hsame
      rw [hnone t' ht'] at htrue
      cases htrue
  rw [Tag.given, hstart, hlog]
  exact BitVec.or_zero

theorem TagKey.given_putTagKey (s₀ : State N) (log : List (TagCall N)) (key : TagK)
    (tagType : TagType) (k : TagKey) : k.given s₀ (log ++ [.putTagKey key tagType]) =
      if k.key = key then k.given s₀ log ||| tagType else k.given s₀ log := by
  rw [given_append, maskOf]
  split
  · rfl
  · exact BitVec.or_zero

theorem Tag.given_putTag (s₀ : State N) (log : List (TagCall N)) (key : TagK) (value : Value N)
    (tagType : TagType) (t : Tag N) : t.given s₀ (log ++ [.putTag key value tagType]) =
      if t.matches key value then t.given s₀ log ||| tagType else t.given s₀ log := by
  rw [given_append, maskOf]
  split
  · rfl
  · exact BitVec.or_zero

theorem putTagKey_given_iff {s₀ : State N} {x : Logged N} (hlog : LogSound s₀ x)
    (hgiven : TagTypesGiven s₀ x) {key : TagK} {tagType : TagType} {i : Nat} {s' : State N}
    (hrun : x.1.putTagKey key tagType = .ok (i, s')) :
    TagTypesGiven s₀ (s', x.2 ++ [.putTagKey key tagType]) ↔
      (TagCall.putTagKey key tagType : TagCall N).Fits x.1 := by
  obtain ⟨k, _, hs', hput⟩ := State.putTagKey_returns hrun
  have htag : ∀ t ∈ s'.tag.table.rows, t.tagType = t.given s₀ (x.2 ++ [.putTagKey key tagType]) := by
    intro t ht
    rw [hs'] at ht
    rw [Tag.given_append, hgiven.2 t ht]
    exact BitVec.or_zero.symm
  have hiff := hput.given_iff (fun k => k.given s₀ x.2) (fun _ _ => rfl) (fun _ _ => rfl)
    (by simp [TagKey.bitmapped])
    (fun k₁ h₁ k₂ h₂ hkey₁ hkey₂ => State.tagKey_eq_of_key h₁ h₂
      ((of_decide_eq_true hkey₁).trans (of_decide_eq_true hkey₂).symm))
    (fun k₁ h₁ k₂ h₂ hid => State.tagKey_eq_of_id h₁ h₂ hid)
    (fun hnone k hkey => TagKey.given_eq_zero hlog fun k' hk' => by
      simpa [of_decide_eq_true hkey] using hnone k' hk')
    hgiven.1
  simp only [decide_eq_true_eq] at hiff
  rw [TagCall.Fits]
  refine Iff.trans ⟨fun h => ?_, fun h => ⟨?_, htag⟩⟩ hiff
  · intro k hk
    rw [← TagKey.given_putTagKey]
    exact h.1 k hk
  · intro k hk
    rw [TagKey.given_putTagKey]
    exact h k hk

theorem putTag_given_iff {s₀ : State N} {x : Logged N} (hlog : LogSound s₀ x)
    (hgiven : TagTypesGiven s₀ x) {key : TagK} {value : Value N} {tagType : TagType} {i : Nat}
    {s' : State N} (hrun : x.1.putTag key value tagType = .ok (i, s')) :
    TagTypesGiven s₀ (s', x.2 ++ [.putTag key value tagType]) ↔
      (TagCall.putTag key value tagType).Fits x.1 := by
  obtain ⟨t, _, hs', hput⟩ := State.putTag_returns hrun
  have hkey : ∀ k ∈ s'.tagKey.table.rows,
      k.tagType = k.given s₀ (x.2 ++ [.putTag key value tagType]) := by
    intro k hk
    rw [hs'] at hk
    rw [TagKey.given_append, hgiven.1 k hk]
    exact BitVec.or_zero.symm
  have hiff := hput.given_iff (fun t => t.given s₀ x.2) (fun _ _ => rfl) (fun _ _ => rfl)
    (fun row hrow n => by
      obtain ⟨k, _, rfl⟩ := Option.map_eq_some_iff.mp hrow
      exact ⟨Tag.matches_iff.mpr ⟨rfl, jsonbEq_refl value⟩, rfl⟩)
    (fun t₁ h₁ t₂ h₂ hmatches₁ hmatches₂ => by
      obtain ⟨hkey, hvalue⟩ := Tag.matches_iff.mp (Tag.matches_trans hmatches₁ hmatches₂)
      exact State.tag_eq_of_value h₁ h₂ hkey hvalue)
    (fun t₁ h₁ t₂ h₂ hid => State.tag_eq_of_id h₁ h₂ hid)
    (fun hnone t hmatches => Tag.given_eq_zero hlog fun t' ht' => by
      by_contra htrue
      have hmatches' := Tag.matches_of_matches (by simpa using htrue) hmatches
      rw [hnone t' ht'] at hmatches'
      cases hmatches')
    hgiven.2
  rw [TagCall.Fits]
  refine Iff.trans ⟨fun h => ?_, fun h => ⟨hkey, ?_⟩⟩ hiff
  · intro t ht
    rw [← Tag.given_putTag]
    exact h.2 t ht
  · intro t ht
    rw [Tag.given_putTag]
    exact h t ht

/-- One call keeps the bitmaps what was given exactly when its mask fits. -/
theorem tagStep_given_iff {s₀ : State N} {x : Logged N} (hlog : LogSound s₀ x)
    (hgiven : TagTypesGiven s₀ x) (c : TagCall N) :
    TagTypesGiven s₀ (tagStep x c) ↔ c.Fits x.1 := by
  unfold tagStep
  cases hrun : c.run x.1 with
  | error e =>
    have hmissing : ¬ c.HasRow x.1 := by
      intro hrow
      obtain ⟨i, s', hok⟩ := State.tagCall_returns hrow
      rw [hrun] at hok
      cases hok
    refine ⟨fun _ => ?_, fun _ => hgiven⟩
    cases c with
    | putTagKey key tagType => exact fun k hk hkey => absurd ⟨k, hk, hkey⟩ hmissing
    | putTag key value tagType => exact fun t ht hmatches => absurd ⟨t, ht, hmatches⟩ hmissing
  | ok result =>
    cases c with
    | putTagKey key tagType => exact putTagKey_given_iff hlog hgiven hrun
    | putTag key value tagType => exact putTag_given_iff hlog hgiven hrun

theorem tagTypesGiven_start (s₀ : State N) : TagTypesGiven s₀ (s₀, []) := by
  constructor
  · intro k hk
    obtain ⟨k', hk', hkey, hfind⟩ : ∃ k' ∈ s₀.tagKey.table.rows, decide (k'.key = k.key) = true ∧
        s₀.tagKey.find? (·.key = k.key) = some k' := IdTable.exists_find? hk (decide_eq_true rfl)
    obtain rfl := State.tagKey_eq_of_key hk' hk (of_decide_eq_true hkey)
    rw [TagKey.given, hfind]
    exact BitVec.or_zero.symm
  · intro t ht
    obtain ⟨t', ht', hmatches, hfind⟩ :=
      IdTable.exists_find? ht (Tag.matches_iff.mpr ⟨rfl, jsonbEq_refl t.value⟩)
    obtain ⟨hkey, hvalue⟩ := Tag.matches_iff.mp hmatches
    obtain rfl := State.tag_eq_of_value ht' ht hkey hvalue
    rw [Tag.given, hfind]
    exact BitVec.or_zero.symm

theorem State.Extends.tagIdsKept {s s' : State N} (h : s.Extends s') : TagIdsKept s s' := by
  refine ⟨?_, ?_, fun _ hk _ hk' => tagKey_eq_of_key hk hk', fun _ ht _ ht' => tag_eq_of_value ht ht'⟩
  · intro k hk
    obtain ⟨m, hm⟩ := h.tagKey k hk
    exact ⟨_, hm, rfl, rfl⟩
  · intro t ht
    obtain ⟨m, hm⟩ := h.tag t ht
    exact ⟨_, hm, rfl, rfl, rfl⟩

/-- From any state of a run on, the bitmaps are what was given in all states visited exactly
when the mask of every call fits. Ids stay and values are unique in any case. -/
theorem tagTypes_given_iff (wellKnown : WellKnownTags) (before : List (Op N))
    (cs : List (TagCall N)) :
    let s₀ : State N := (State.init wellKnown).after before
    (AllStates tagStep (TagTypesGiven s₀) (s₀, []) cs ↔
        AllSteps tagStep (fun x c => c.Fits x.1) (s₀, []) cs) ∧
      AllStates tagStep (fun x => TagIdsKept s₀ x.1) (s₀, []) cs := by
  intro s₀
  have hstart : LogSound s₀ (s₀, []) := ⟨.refl s₀, by simp⟩
  constructor
  · exact allStates_iff_allSteps (LogSound s₀) (fun _ c hlog => tagStep_logSound hlog c)
      (fun _ c hlog hgiven => tagStep_given_iff hlog hgiven c) hstart (tagTypesGiven_start s₀) cs
  · have hlog : AllStates tagStep (LogSound s₀) (s₀, []) cs :=
      @allStates_of_preserved _ _ _ (LogSound s₀) (fun _ c h => tagStep_logSound h c) _ hstart cs
    exact AllStates.imp (fun _ h => h.extends_start.tagIdsKept) hlog

/-- `put_tag_key('a', 1)`, then `put_tag_key('a', 3)`: the bitmap stays 1. -/
theorem putTagKey_overlapping : ¬ AllStates tagStep
    (TagTypesGiven (State.init serviceNameOnly : State Empty)) (State.init serviceNameOnly, [])
    [.putTagKey ⟨letterA, by simp [letterA]⟩ 1, .putTagKey ⟨letterA, by simp [letterA]⟩ 3] := by
  intro h
  have hgiven := h.last.1 ⟨1001, 1, ⟨letterA, by simp [letterA]⟩⟩ (by decide)
  revert hgiven
  decide

end Promscale.Tracing
