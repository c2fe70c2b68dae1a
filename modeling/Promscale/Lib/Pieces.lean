import Mathlib.Data.List.Infix

/-!
# Cutting a text into pieces

At a separator, and into lines. Pieces are taken from the text as they stand there; the first one
is the text itself when the separator does not occur in it, and else ends where it occurs first.
-/
namespace Promscale.Lib

/-- What stands around a character that it does not contain stands on one side of it. -/
theorem infix_append_cons {α : Type} {w xs ys : List α} {c : α} (h : w <:+: xs ++ c :: ys)
    (hc : c ∉ w) : w <:+: xs ∨ w <:+: ys := by
  have hpre : ∀ {l : List α}, l <+: c :: ys → c ∉ l → l = [] := by
    intro l hl hc
    rcases List.prefix_cons_iff.mp hl with rfl | ⟨l', rfl, -⟩
    · rfl
    · exact absurd List.mem_cons_self hc
  rcases List.infix_append_iff_ne_nil.mp h with h | h | ⟨l₁, l₂, -, hne, rfl, -, hl₂⟩
  · exact .inl h
  · rcases List.infix_cons_iff.mp h with h | h
    · exact .inr (hpre h hc ▸ List.nil_infix)
    · exact .inr h
  · exact absurd (hpre hl₂ fun hmem => hc (List.mem_append_right _ hmem)) hne

section Split
variable {α : Type} [DecidableEq α]

/-- The pieces of a text whose first characters still belong to a separator. -/
def splitFrom (sep : List α) : Nat → List α → List (List α)
  | _, [] => [[]]
  | skip + 1, _ :: cs => splitFrom sep skip cs
  | 0, c :: cs =>
    if sep <+: c :: cs then [] :: splitFrom sep (sep.length - 1) cs
    else (splitFrom sep 0 cs).modifyHead (c :: ·)

def split (sep text : List α) : List (List α) := splitFrom sep 0 text

theorem splitFrom_eq_cons (sep : List α) (skip : Nat) (text : List α) :
    ∃ p ps, splitFrom sep skip text = p :: ps ∧ p <+: text.drop skip := by
  induction text generalizing skip with
  | nil => exact ⟨[], [], by rw [splitFrom], by simp⟩
  | cons c cs ih =>
    cases skip with
    | succ skip => simpa [splitFrom] using ih skip
    | zero =>
      rw [splitFrom]
      split
      · exact ⟨[], _, rfl, List.nil_prefix⟩
      · obtain ⟨p, ps, hps, hp⟩ := ih 0
        rw [hps]
        exact ⟨c :: p, ps, rfl, by simpa using hp⟩

theorem infix_of_mem_splitFrom {sep : List α} {skip : Nat} {text p : List α}
    (h : p ∈ splitFrom sep skip text) : p <:+: text := by
  induction text generalizing skip p with
  | nil =>
    rw [splitFrom, List.mem_singleton] at h
    rw [h]
  | cons c cs ih =>
    cases skip with
    | succ skip => exact (ih h).trans (List.suffix_cons c cs).isInfix
    | zero =>
      rw [splitFrom] at h
      split at h
      · rcases List.mem_cons.mp h with rfl | h
        · exact List.nil_infix
        · exact (ih h).trans (List.suffix_cons c cs).isInfix
      · obtain ⟨q, qs, hqs, hq⟩ := splitFrom_eq_cons sep 0 cs
        rw [hqs, List.modifyHead_cons] at h
        rcases List.mem_cons.mp h with rfl | h
        · exact ((List.prefix_cons_inj c).mpr hq).isInfix
        · exact (ih (hqs ▸ List.mem_cons_of_mem q h)).trans (List.suffix_cons c cs).isInfix

theorem infix_of_mem_split {sep text p : List α} (h : p ∈ split sep text) : p <:+: text :=
  infix_of_mem_splitFrom h

theorem split_eq_singleton {sep text : List α} (h : ¬ sep <:+: text) : split sep text = [text] := by
  induction text with
  | nil => rfl
  | cons c cs ih =>
    have hpre : ¬ sep <+: c :: cs := fun hsep => h hsep.isInfix
    have hcs : ¬ sep <:+: cs := fun hsep => h (hsep.trans (List.suffix_cons c cs).isInfix)
    rw [split, splitFrom, if_neg hpre, ← split, ih hcs]
    rfl

/-- The separator follows the first piece. -/
theorem split_eq_cons {sep text : List α} (h : sep <:+: text) (hsep : sep ≠ []) :
    ∃ p ps, split sep text = p :: ps ∧ p ++ sep <+: text := by
  induction text with
  | nil => exact absurd (List.infix_nil.mp h) hsep
  | cons c cs ih =>
    by_cases hpre : sep <+: c :: cs
    · refine ⟨[], splitFrom sep (sep.length - 1) cs, ?_, hpre⟩
      rw [split, splitFrom, if_pos hpre]
    · obtain ⟨p, ps, hps, hp⟩ := ih ((List.infix_cons_iff.mp h).resolve_left hpre)
      refine ⟨c :: p, ps, ?_, (List.prefix_cons_inj c).mpr hp⟩
      rw [split, splitFrom, if_neg hpre, ← split, hps, List.modifyHead_cons]

end Split

section Lines

/-- A line without the carriage return that goes with its end. -/
def stripCarriageReturn (line : List Char) : List Char :=
  if line.getLast? = some '\r' then line.dropLast else line

/-- `str::lines`: what comes after the last line feed is a line if it is not empty, as it is. -/
def lines (text : List Char) : List (List Char) :=
  (text.splitOn '\n').dropLast.map stripCarriageReturn ++
    ((text.splitOn '\n').getLast?.filter (· ≠ [])).toList

/-- A line with its end. -/
def endLine (line : List Char) : List Char := line ++ ['\n']

theorem lines_flatMap_endLine {ls : List (List Char)} (h : ∀ l ∈ ls, '\n' ∉ l) :
    lines (ls.flatMap endLine) = ls.map stripCarriageReturn := by
  have hsplit : (ls.flatMap endLine).splitOn '\n' = ls ++ [[]] := by
    induction ls with
    | nil => rfl
    | cons l ls ih =>
      obtain ⟨hl, hls⟩ := List.forall_mem_cons.mp h
      rw [List.flatMap_cons, endLine, List.append_assoc, List.singleton_append,
        List.splitOn_append_cons_self_of_not_mem hl, ih hls, List.cons_append]
  rw [lines, hsplit, List.dropLast_concat, List.getLast?_concat]
  simp

theorem stripCarriageReturn_isPrefix (line : List Char) : stripCarriageReturn line <+: line := by
  rw [stripCarriageReturn]
  split
  · exact List.dropLast_prefix line
  · exact List.prefix_refl line

theorem stripCarriageReturn_of_getLast? {line : List Char} (h : line.getLast? ≠ some '\r') :
    stripCarriageReturn line = line := if_neg h

theorem stripCarriageReturn_append {l l' : List Char} (h : l.getLast? ≠ some '\r') :
    stripCarriageReturn (l ++ l') = l ++ stripCarriageReturn l' := by
  cases hl' : l' with
  | nil =>
    rw [List.append_nil, stripCarriageReturn_of_getLast? h,
      stripCarriageReturn_of_getLast? (by simp), List.append_nil]
  | cons c cs =>
    rw [stripCarriageReturn, stripCarriageReturn, List.getLast?_append_of_ne_nil _ (by simp),
      List.dropLast_append_of_ne_nil (by simp), ← apply_ite (l ++ ·)]

theorem count_stripCarriageReturn_lt {line : List Char} (h : line.getLast? = some '\r') :
    (stripCarriageReturn line).count '\r' < line.count '\r' := by
  obtain ⟨l, rfl⟩ := List.getLast?_eq_some_iff.mp h
  rw [stripCarriageReturn, if_pos h, List.dropLast_concat, List.count_append,
    List.count_singleton_self]
  exact Nat.lt_succ_self _

end Lines

end Promscale.Lib
