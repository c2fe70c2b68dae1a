import Mathlib.Algebra.BigOperators.Group.List.Basic
import Mathlib.Algebra.Ring.Int.Defs
import Promscale.Catalog.Labels

/-!
# Names made from an id

`pg_name_unique` counts characters and the type `name` holds 63 bytes. The names it means
to give are distinct for distinct ids; the names they are cut off to are not when they first
differ behind the 63 bytes.
-/
namespace Promscale.Catalog

/-- What `pg_name_unique` casts to `name`. -/
def untruncatedName (fullNameArg suffix : String) : String :=
  if fullNameArg.length < 62 then fullNameArg
  else String.ofList (fullNameArg.toList.take (62 - (suffix.length + 1))) ++ "_" ++ suffix

/-- At the first place where they differ, a character that one of them has there is within
the room. -/
def differWithin : List Char → List Char → Nat → Bool
  | [], [], _ => false
  | [], ch :: _, room => ch.utf8Size ≤ room
  | ch :: _, [], room => ch.utf8Size ≤ room
  | ch :: s, ch' :: t, room =>
    if ch = ch' then ch.utf8Size ≤ room && differWithin s t (room - ch.utf8Size)
    else ch.utf8Size ≤ room || ch'.utf8Size ≤ room

def utf8Length : List Char → Nat
  | [] => 0
  | ch :: s => ch.utf8Size + utf8Length s

@[simp] theorem utf8Length_cons (ch : Char) (s : List Char) :
    utf8Length (ch :: s) = ch.utf8Size + utf8Length s := rfl

theorem pgNameUnique_eq (fullNameArg suffix : String) :
    pgNameUnique fullNameArg suffix = castName (untruncatedName fullNameArg suffix) := by
  unfold pgNameUnique untruncatedName pgNameWithSuffix
  split <;> rfl

/-! ## The cut -/

theorem castNameChars_ne_iff (s t : List Char) (room : Nat) :
    castNameChars s room ≠ castNameChars t room ↔ differWithin s t room = true := by
  induction s generalizing t room with
  | nil =>
    cases t with
    | nil => simp [differWithin]
    | cons ch t =>
      simp only [castNameChars, differWithin, decide_eq_true_eq]
      split <;> simp [*]
  | cons ch s ih =>
    cases t with
    | nil =>
      simp only [castNameChars, differWithin, decide_eq_true_eq]
      split <;> simp [*]
    | cons ch' t =>
      simp only [castNameChars, differWithin]
      by_cases heq : ch = ch'
      · subst heq
        by_cases hfits : ch.utf8Size ≤ room
        · simpa [hfits] using ih t (room - ch.utf8Size)
        · simp [hfits]
      · by_cases hfits : ch.utf8Size ≤ room <;> by_cases hfits' : ch'.utf8Size ≤ room <;>
          simp [heq, hfits, hfits']

theorem castName_ne_iff (s t : String) :
    castName s ≠ castName t ↔ differWithin s.toList t.toList 63 = true := by
  unfold castName
  rw [← castNameChars_ne_iff, ne_eq, ne_eq, String.ofList_inj]

/-- Names that fit are not cut. -/
theorem differWithin_of_fits {s t : List Char} {room : Nat} (hs : utf8Length s ≤ room)
    (ht : utf8Length t ≤ room) (hne : s ≠ t) : differWithin s t room = true := by
  induction s generalizing t room with
  | nil =>
    cases t with
    | nil => exact absurd rfl hne
    | cons ch t =>
      simp only [utf8Length_cons] at ht
      simp only [differWithin, decide_eq_true_eq]
      omega
  | cons ch s ih =>
    simp only [utf8Length_cons] at hs
    cases t with
    | nil =>
      simp only [differWithin, decide_eq_true_eq]
      omega
    | cons ch' t =>
      simp only [utf8Length_cons] at ht
      unfold differWithin
      split
      · rename_i heq
        subst heq
        have hrest : differWithin s t (room - ch.utf8Size) = true :=
          ih (by omega) (by omega) (by simpa using hne)
        simp only [Bool.and_eq_true, decide_eq_true_eq]
        exact ⟨by omega, hrest⟩
      · simp only [Bool.or_eq_true, decide_eq_true_eq]
        omega

/-! ## The suffix -/

theorem last_separator_inj {α : Type} {x : α} {a b s t : List α} (hs : x ∉ s) (ht : x ∉ t)
    (h : a ++ x :: s = b ++ x :: t) : s = t := by
  rcases List.append_eq_append_iff.mp h with ⟨c, _, hc⟩ | ⟨c, _, hc⟩
  · cases c with
    | nil => simpa using hc
    | cons y c =>
      obtain ⟨_, rfl⟩ := List.cons.inj hc
      exact absurd (by simp) hs
  · cases c with
    | nil => simpa using hc.symm
    | cons y c =>
      obtain ⟨_, rfl⟩ := List.cons.inj hc
      exact absurd (by simp) ht

/-- Two ids followed by the same characters are told apart by what stands behind the last
underscore before these. -/
theorem suffixed_ids_ne {i j : Nat} (hid : i ≠ j) (a b rest : List Char) :
    a ++ '_' :: (Nat.toDigits 10 i ++ rest) ≠ b ++ '_' :: (Nat.toDigits 10 j ++ rest) := by
  intro h
  have h : (a ++ '_' :: Nat.toDigits 10 i) ++ rest = (b ++ '_' :: Nat.toDigits 10 j) ++ rest := by
    simpa using h
  have hdigits := last_separator_inj Nat.underscore_not_in_toDigits Nat.underscore_not_in_toDigits
    (List.append_cancel_right h)
  have := congrArg (fun digits => Nat.ofDigitChars 10 digits 0) hdigits
  simp only [Nat.ofDigitChars_ten_toDigits] at this
  exact hid this

theorem untruncatedName_length {fullNameArg suffix : String} (hsuffix : suffix.length ≤ 61)
    (hlong : ¬ fullNameArg.length < 62) : (untruncatedName fullNameArg suffix).length = 62 := by
  have hunderscore : "_".length = 1 := rfl
  have hlength : fullNameArg.toList.length = fullNameArg.length := String.length_toList
  rw [untruncatedName, if_neg hlong, String.length_append, String.length_append,
    String.length_ofList, List.length_take]
  omega

/-- Before they are cut off, the names of distinct ids are distinct. -/
theorem untruncatedName_ne {n n' rest : String} {i j : Nat} (hn : n ≠ n') (hid : i ≠ j)
    (hi : (toString i ++ rest).length ≤ 61) (hj : (toString j ++ rest).length ≤ 61) :
    untruncatedName n (toString i ++ rest) ≠ untruncatedName n' (toString j ++ rest) := by
  by_cases hshort : n.length < 62 <;> by_cases hshort' : n'.length < 62
  · rw [untruncatedName, untruncatedName, if_pos hshort, if_pos hshort']
    exact hn
  · intro heq
    have hlength := congrArg String.length heq
    rw [untruncatedName_length hj hshort', untruncatedName, if_pos hshort] at hlength
    omega
  · intro heq
    have hlength := congrArg String.length heq
    rw [untruncatedName_length hi hshort, untruncatedName, if_pos hshort'] at hlength
    omega
  · rw [untruncatedName, untruncatedName, if_neg hshort, if_neg hshort']
    intro heq
    have heq := congrArg String.toList heq
    simp only [String.toList_append, String.toList_ofList, List.append_assoc, Nat.toString_eq_repr,
      Nat.toList_repr] at heq
    exact suffixed_ids_ne hid _ _ _ heq

theorem toString_length_le {i : Nat} (hi : i < 2 ^ 31) : (toString i).length ≤ 10 :=
  (Nat.length_repr_le_iff (by decide)).mpr (by omega)

/-! ## One byte for each character -/

theorem utf8Length_eq_length {s : List Char} (h : ∀ ch ∈ s, ch.utf8Size = 1) :
    utf8Length s = s.length := by
  induction s with
  | nil => rfl
  | cons ch s ih =>
    have hrest := ih fun ch hch => h ch (by simp [hch])
    rw [utf8Length_cons, hrest, h ch (by simp), List.length_cons, Nat.add_comm]

theorem digit_utf8Size {i : Nat} {ch : Char} (h : ch ∈ (toString i).toList) :
    ch.utf8Size = 1 := by
  rw [Nat.toString_eq_repr, Nat.toList_repr] at h
  have hdigit := Nat.isDigit_of_mem_toDigits (by decide) (by decide) h
  simp only [Char.isDigit, Bool.and_eq_true, decide_eq_true_eq] at hdigit
  have hsmall : ch.val ≤ 0x7F := Nat.le_trans hdigit.2 (by decide)
  exact if_pos hsmall

theorem untruncatedName_fits {n : String} {i : Nat} (hi : i < 2 ^ 31)
    (hbytes : ∀ ch ∈ n.toList, ch.utf8Size = 1) :
    utf8Length (untruncatedName n (toString i)).toList ≤ 63 := by
  have hid := toString_length_le hi
  have hsize : ∀ ch ∈ (untruncatedName n (toString i)).toList, ch.utf8Size = 1 := by
    intro ch hch
    unfold untruncatedName at hch
    split at hch
    · exact hbytes ch hch
    · simp only [String.toList_append, String.toList_ofList, List.mem_append] at hch
      rcases hch with (hch | hch) | hch
      · exact hbytes ch (List.mem_of_mem_take hch)
      · have hunderscore : ch = '_' := by simpa using hch
        rw [hunderscore]
        rfl
      · exact digit_utf8Size hch
  rw [utf8Length_eq_length hsize, String.length_toList]
  by_cases hshort : n.length < 62
  · rw [untruncatedName, if_pos hshort]
    omega
  · rw [untruncatedName_length (by omega) hshort]
    omega

/-- Distinct metrics have distinct names exactly when the names meant for them differ within
the 63 bytes of the type, as they always do where each character has one byte. -/
theorem pgNameUnique_ne_iff {n n' : String} {i j : Nat} (hn : n ≠ n') (hid : i ≠ j)
    (hi : i < 2 ^ 31) (hj : j < 2 ^ 31) :
    (pgNameUnique n (toString i) ≠ pgNameUnique n' (toString j) ↔
      differWithin (untruncatedName n (toString i)).toList
        (untruncatedName n' (toString j)).toList 63 = true) ∧
    untruncatedName n (toString i) ≠ untruncatedName n' (toString j) ∧
    ((∀ ch ∈ n.toList, ch.utf8Size = 1) → (∀ ch ∈ n'.toList, ch.utf8Size = 1) →
      pgNameUnique n (toString i) ≠ pgNameUnique n' (toString j)) := by
  have hle := toString_length_le hi
  have hle' := toString_length_le hj
  have hne : untruncatedName n (toString i) ≠ untruncatedName n' (toString j) := by
    have hids := @untruncatedName_ne n n' "" i j hn hid
    simp only [String.append_empty] at hids
    exact hids (by omega) (by omega)
  refine ⟨?_, hne, ?_⟩
  · rw [pgNameUnique_eq, pgNameUnique_eq]
    exact castName_ne_iff _ _
  · intro hbytes hbytes'
    rw [pgNameUnique_eq, pgNameUnique_eq, castName_ne_iff]
    exact differWithin_of_fits (untruncatedName_fits hi hbytes) (untruncatedName_fits hj hbytes')
      fun heq => hne (String.toList_inj.mp heq)

theorem pgNameUnique_ne_cpu_mem :
    pgNameUnique "cpu" (toString 1) ≠ pgNameUnique "mem" (toString 2) :=
  (pgNameUnique_ne_iff (by decide) (by decide) (by decide) (by decide)).2.2
    (by simp; decide) (by simp; decide)

/-- Two names of 32 characters, the last of which stands behind byte 62. -/
theorem pgNameUnique_clash :
    let n := String.ofList (List.replicate 32 'é')
    let n' := String.ofList (List.replicate 31 'é' ++ ['è'])
    n ≠ n' ∧ pgNameUnique n (toString 1) = pgNameUnique n' (toString 2) := by
  decide +kernel

end Promscale.Catalog
