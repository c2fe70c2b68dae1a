import Mathlib.Data.List.Infix

/-!
# Matching by backtracking

Regular expressions with character classes, named groups and anchors. Of several ways to match,
the first one is taken: the left alternative before the right one, another iteration before the
end of a greedy repetition and after that of a lazy one. A search that finds something has found
a match, and where there is a match it finds one.
-/
namespace Promscale.Lib

inductive Regex (α ν : Type) where
  | empty
  | oneOf (p : α → Bool)
  | textStart
  | textEnd
  | seq (r r' : Regex α ν)
  | alt (r r' : Regex α ν)
  | star (greedy : Bool) (r : Regex α ν)
  | group (name : ν) (r : Regex α ν)

namespace Regex

variable {α ν : Type}

/-- `c` -/
def char [DecidableEq α] (c : α) : Regex α ν := .oneOf (· = c)

def literal [DecidableEq α] (w : List α) : Regex α ν := w.foldr (fun c r => .seq (char c) r) .empty

/-- `r+` -/
def oneOrMore (r : Regex α ν) : Regex α ν := .seq r (.star true r)

/-- `r?` -/
def zeroOrOne (r : Regex α ν) : Regex α ν := .alt r .empty

/-- `r{n}` -/
def times : Nat → Regex α ν → Regex α ν
  | 0, _ => .empty
  | n + 1, r => .seq r (times n r)

/-- Whether an expression matches the empty text. -/
def nullable : Regex α ν → Bool
  | .empty | .textStart | .textEnd | .star _ _ => true
  | .oneOf _ => false
  | .seq r r' => r.nullable && r'.nullable
  | .alt r r' => r.nullable || r'.nullable
  | .group _ r => r.nullable

/-- Every iteration of a repetition advances. Engines differ in what else they do. -/
def proper : Regex α ν → Bool
  | .empty | .textStart | .textEnd | .oneOf _ => true
  | .seq r r' | .alt r r' => r.proper && r'.proper
  | .star _ r => !r.nullable && r.proper
  | .group _ r => r.proper

/-- A place in a text, and what the groups have captured on the way there, the latest first. -/
structure At (α ν : Type) where
  pos : Nat
  rest : List α
  groups : List (ν × List α)
  deriving DecidableEq

namespace At

def advance (s : At α ν) (n : Nat) : At α ν :=
  { s with pos := s.pos + n, rest := s.rest.drop n }

/-- The text from one place to a later one. -/
def textTo (s t : At α ν) : List α := s.rest.take (s.rest.length - t.rest.length)

def capture (s t : At α ν) (name : ν) : At α ν :=
  { t with groups := (name, s.textTo t) :: t.groups }

def name [BEq ν] (s : At α ν) (n : ν) : Option (List α) := s.groups.lookup n

end At

/-- What is left to match comes as a function of the place reached. -/
abbrev Matcher (α ν : Type) := At α ν → (At α ν → Option (At α ν)) → Option (At α ν)

/-- Iterations of `body`, each of which has to advance. -/
def iterate (greedy : Bool) (body : Matcher α ν) : Nat → Matcher α ν
  | 0, _, _ => none
  | fuel + 1, s, k =>
    let again := body s fun t =>
      if t.rest.length < s.rest.length then iterate greedy body fuel t k else none
    if greedy then again.or (k s) else (k s).or again

def run : Regex α ν → Matcher α ν
  | .empty, s, k => k s
  | .oneOf p, s, k =>
    match s.rest with
    | [] => none
    | c :: _ => if p c then k (s.advance 1) else none
  | .textStart, s, k => if s.pos = 0 then k s else none
  | .textEnd, s, k => if s.rest = [] then k s else none
  | .seq r r', s, k => run r s fun t => run r' t k
  | .alt r r', s, k => (run r s k).or (run r' s k)
  | .star greedy r, s, k => iterate greedy (run r) (s.rest.length + 1) s k
  | .group n r, s, k => run r s fun t => k (s.capture t n)

/-- The first place of the text where the expression matches counts. -/
def searchFrom (r : Regex α ν) : Nat → List α → Option (At α ν)
  | pos, [] => run r ⟨pos, [], []⟩ some
  | pos, c :: cs => (run r ⟨pos, c :: cs, []⟩ some).or (searchFrom r (pos + 1) cs)

def search (r : Regex α ν) (text : List α) : Option (At α ν) := searchFrom r 0 text

/-- From where to where an expression matches. -/
inductive Matches : Regex α ν → At α ν → At α ν → Prop
  | empty {s : At α ν} : Matches .empty s s
  | oneOf {p : α → Bool} {s : At α ν} {c : α} {cs : List α} :
      s.rest = c :: cs → p c = true → Matches (.oneOf p) s (s.advance 1)
  | textStart {s : At α ν} : s.pos = 0 → Matches .textStart s s
  | textEnd {s : At α ν} : s.rest = [] → Matches .textEnd s s
  | seq {r r' : Regex α ν} {s t u : At α ν} :
      Matches r s t → Matches r' t u → Matches (.seq r r') s u
  | left {r r' : Regex α ν} {s t : At α ν} : Matches r s t → Matches (.alt r r') s t
  | right {r r' : Regex α ν} {s t : At α ν} : Matches r' s t → Matches (.alt r r') s t
  | done {greedy : Bool} {r : Regex α ν} {s : At α ν} : Matches (.star greedy r) s s
  | again {greedy : Bool} {r : Regex α ν} {s t u : At α ν} :
      Matches r s t → t.rest.length < s.rest.length → Matches (.star greedy r) t u →
      Matches (.star greedy r) s u
  | group {n : ν} {r : Regex α ν} {s t : At α ν} :
      Matches r s t → Matches (.group n r) s (s.capture t n)

/-! ## Iterations -/

/-- Fuel for every character that is left is enough. -/
theorem iterate_eq_of_lt (greedy : Bool) (body : Matcher α ν) {fuel fuel' : Nat} (s : At α ν)
    (k : At α ν → Option (At α ν)) (h : s.rest.length < fuel) (h' : s.rest.length < fuel') :
    iterate greedy body fuel s k = iterate greedy body fuel' s k := by
  induction fuel generalizing fuel' s with
  | zero => exact absurd h (Nat.not_lt_zero _)
  | succ fuel ih =>
    cases fuel' with
    | zero => exact absurd h' (Nat.not_lt_zero _)
    | succ fuel' =>
      have hagain : ∀ t : At α ν,
          (if t.rest.length < s.rest.length then iterate greedy body fuel t k else none) =
          (if t.rest.length < s.rest.length then iterate greedy body fuel' t k else none) := by
        intro t
        by_cases ht : t.rest.length < s.rest.length
        · rw [if_pos ht, if_pos ht]
          exact ih t (by omega) (by omega)
        · rw [if_neg ht, if_neg ht]
      simp only [iterate, funext hagain]

/-- One more iteration, after which the repetition starts anew. -/
def goOn (greedy : Bool) (r : Regex α ν) (s : At α ν) (k : At α ν → Option (At α ν)) :
    Option (At α ν) :=
  run r s fun t => if t.rest.length < s.rest.length then run (.star greedy r) t k else none

theorem run_star (greedy : Bool) (r : Regex α ν) (s : At α ν) (k : At α ν → Option (At α ν)) :
    run (.star greedy r) s k =
      if greedy then (goOn greedy r s k).or (k s) else (k s).or (goOn greedy r s k) := by
  have hagain : ∀ t : At α ν,
      (if t.rest.length < s.rest.length then
        iterate greedy (run r) s.rest.length t k else none) =
      (if t.rest.length < s.rest.length then run (.star greedy r) t k else none) := by
    intro t
    by_cases ht : t.rest.length < s.rest.length
    · rw [if_pos ht, if_pos ht]
      exact iterate_eq_of_lt greedy (run r) t k ht (Nat.lt_succ_self _)
    · rw [if_neg ht, if_neg ht]
  rw [run, iterate, funext hagain, goOn]

/-! ## What a run finds is a match -/

theorem matches_of_run {r : Regex α ν} {s u : At α ν} {k : At α ν → Option (At α ν)}
    (h : run r s k = some u) : ∃ t, Matches r s t ∧ k t = some u := by
  induction r generalizing s u k with
  | empty => exact ⟨s, .empty, h⟩
  | oneOf p =>
    rw [run] at h
    split at h
    · cases h
    · rename_i c cs hs
      split at h
      · exact ⟨s.advance 1, .oneOf hs ‹_›, h⟩
      · cases h
  | textStart =>
    rw [run] at h
    split at h
    · exact ⟨s, .textStart ‹_›, h⟩
    · cases h
  | textEnd =>
    rw [run] at h
    split at h
    · exact ⟨s, .textEnd ‹_›, h⟩
    · cases h
  | seq r r' ih ih' =>
    obtain ⟨t, ht, h⟩ := ih h
    obtain ⟨t', ht', h⟩ := ih' h
    exact ⟨t', ht.seq ht', h⟩
  | alt r r' ih ih' =>
    rcases Option.or_eq_some_iff.mp h with h | ⟨-, h⟩
    · obtain ⟨t, ht, h⟩ := ih h
      exact ⟨t, ht.left, h⟩
    · obtain ⟨t, ht, h⟩ := ih' h
      exact ⟨t, ht.right, h⟩
  | star greedy r ih =>
    -- the text that is left gets shorter with every iteration
    induction hn : s.rest.length using Nat.strong_induction_on generalizing s with
    | _ n ihn =>
      have hgo : goOn greedy r s k = some u →
          ∃ t, Matches (.star greedy r) s t ∧ k t = some u := by
        intro hgo
        obtain ⟨t, ht, hrest⟩ := ih hgo
        split at hrest
        · obtain ⟨t', ht', hk⟩ := ihn _ (hn ▸ ‹_›) hrest rfl
          exact ⟨t', ht.again ‹_› ht', hk⟩
        · cases hrest
      rw [run_star] at h
      split at h
      · rcases Option.or_eq_some_iff.mp h with h | ⟨-, h⟩
        · exact hgo h
        · exact ⟨s, .done, h⟩
      · rcases Option.or_eq_some_iff.mp h with h | ⟨-, h⟩
        · exact ⟨s, .done, h⟩
        · exact hgo h
  | group n r ih =>
    obtain ⟨t, ht, h⟩ := ih h
    exact ⟨s.capture t n, ht.group, h⟩

theorem Matches.run {r : Regex α ν} {s t : At α ν} (h : Matches r s t)
    {k : At α ν → Option (At α ν)} (hk : (k t).isSome) : (Regex.run r s k).isSome := by
  induction h generalizing k with
  | empty => exact hk
  | oneOf hs hp => simpa [Regex.run, hs, hp] using hk
  | textStart hs => simpa [Regex.run, hs] using hk
  | textEnd hs => simpa [Regex.run, hs] using hk
  | seq _ _ ih ih' => exact ih (ih' hk)
  | left _ ih => simp [Regex.run, ih hk]
  | right _ ih => simp [Regex.run, ih hk]
  | done =>
    rw [run_star]
    split <;> simp [hk]
  | again _ hlt _ ih ih' =>
    have hgo : (goOn _ _ _ k).isSome := ih (by rw [if_pos hlt]; exact ih' hk)
    rw [run_star]
    split <;> simp [hgo]
  | group _ ih => exact ih hk

/-! ## What a match covers -/

theorem Matches.suffix {r : Regex α ν} {s t : At α ν} (h : Matches r s t) :
    t.rest <:+ s.rest := by
  induction h with
  | empty | textStart | textEnd | done => exact List.suffix_refl _
  | oneOf => exact List.drop_suffix _ _
  | seq _ _ ih ih' => exact ih'.trans ih
  | left _ ih | right _ ih | group _ ih => exact ih
  | again _ _ _ ih ih' => exact ih'.trans ih

/-- What a group captures stands in the text. -/
theorem Matches.groups {r : Regex α ν} {s t : At α ν} (h : Matches r s t) :
    ∀ g ∈ t.groups, g ∈ s.groups ∨ g.2 <:+: s.rest := by
  induction h with
  | empty | oneOf | textStart | textEnd | done => exact fun g hg => .inl hg
  | left _ ih | right _ ih => exact ih
  | seq h _ ih ih' | again h _ _ ih ih' =>
    intro g hg
    rcases ih' g hg with hg | hg
    · exact ih g hg
    · exact .inr (hg.trans h.suffix.isInfix)
  | group _ ih =>
    intro g hg
    rcases List.mem_cons.mp hg with rfl | hg
    · exact .inr (List.take_prefix _ _).isInfix
    · exact ih g hg

/-- The place a search has found a match from. -/
theorem matches_of_searchFrom {r : Regex α ν} {pos : Nat} {text : List α} {t : At α ν}
    (h : searchFrom r pos text = some t) :
    ∃ s : At α ν, Matches r s t ∧ s.rest <:+ text ∧ s.groups = [] := by
  induction text generalizing pos with
  | nil =>
    obtain ⟨u, hu, heq⟩ := matches_of_run h
    cases heq
    exact ⟨_, hu, List.suffix_refl _, rfl⟩
  | cons c cs ih =>
    rcases Option.or_eq_some_iff.mp h with h | ⟨-, h⟩
    · obtain ⟨u, hu, heq⟩ := matches_of_run h
      cases heq
      exact ⟨_, hu, List.suffix_refl _, rfl⟩
    · obtain ⟨s, hs, hsuffix, hgroups⟩ := ih h
      exact ⟨s, hs, hsuffix.trans (List.suffix_cons c cs), hgroups⟩

theorem matches_of_search {r : Regex α ν} {text : List α} {t : At α ν}
    (h : search r text = some t) :
    ∃ s : At α ν, Matches r s t ∧ s.rest <:+ text ∧ s.groups = [] :=
  matches_of_searchFrom h

theorem search_eq_of_run {r : Regex α ν} {text : List α} {t : At α ν}
    (h : run r ⟨0, text, []⟩ some = some t) : search r text = some t := by
  cases text with
  | nil => exact h
  | cons c cs => rw [search, searchFrom, h, Option.some_or]

theorem Matches.search {r : Regex α ν} {text : List α} {t : At α ν}
    (h : Matches r ⟨0, text, []⟩ t) : (Regex.search r text).isSome := by
  obtain ⟨u, hu⟩ := Option.isSome_iff_exists.mp (h.run (k := some) rfl)
  rw [search_eq_of_run hu]
  rfl

theorem infix_of_search [BEq ν] [LawfulBEq ν] {r : Regex α ν} {text w : List α} {t : At α ν}
    {n : ν} (h : search r text = some t) (hname : t.name n = some w) : w <:+: text := by
  obtain ⟨s, hs, hsuffix, hgroups⟩ := matches_of_search h
  obtain ⟨l, l', hl, -⟩ := List.lookup_eq_some_iff.mp hname
  rcases hs.groups (n, w) (by simp [hl]) with hg | hg
  · simp [hgroups] at hg
  · exact hg.trans hsuffix.isInfix

/-! ## Literals and repeated classes -/

section Shapes
variable {p : α → Bool} {s t : At α ν}

@[simp] theorem At.advance_zero (s : At α ν) : s.advance 0 = s := by
  simp [At.advance]

theorem At.advance_advance (s : At α ν) (m n : Nat) :
    (s.advance m).advance n = s.advance (m + n) := by
  simp only [At.advance, Nat.add_assoc, List.drop_drop]

theorem At.rest_advance {w : List α} (h : w <+: s.rest) :
    s.rest = w ++ (s.advance w.length).rest := by
  obtain ⟨w', hw'⟩ := h
  simp [At.advance, ← hw']

theorem At.cons_isPrefix_iff {c : α} {w : List α} (h : [c] <+: s.rest) :
    c :: w <+: s.rest ↔ w <+: (s.advance 1).rest := by
  rw [At.rest_advance h]
  exact List.prefix_append_right_inj [c]

theorem At.advance_cons (s : At α ν) (c : α) (w : List α) :
    (s.advance 1).advance w.length = s.advance (c :: w).length := by
  rw [At.advance_advance, List.length_cons, Nat.add_comm]

theorem run_seq (r r' : Regex α ν) (s : At α ν) (k : At α ν → Option (At α ν)) :
    run (.seq r r') s k = run r s fun t => run r' t k := rfl

theorem run_oneOf_cons (p : α → Bool) (pos : Nat) (c : α) (cs : List α)
    (groups : List (ν × List α)) (k : At α ν → Option (At α ν)) :
    run (.oneOf p) ⟨pos, c :: cs, groups⟩ k =
      if p c then k ⟨pos + 1, cs, groups⟩ else none := rfl

theorem run_textStart (s : At α ν) (k : At α ν → Option (At α ν)) :
    run .textStart s k = if s.pos = 0 then k s else none := rfl

theorem run_alt (r r' : Regex α ν) (s : At α ν) (k : At α ν → Option (At α ν)) :
    run (.alt r r') s k = (run r s k).or (run r' s k) := rfl

theorem run_group (n : ν) (r : Regex α ν) (s : At α ν) (k : At α ν → Option (At α ν)) :
    run (.group n r) s k = run r s fun t => k (s.capture t n) := rfl

theorem At.capture_append (pos pos' : Nat) (w rest : List α) (groups groups' : List (ν × List α))
    (n : ν) : At.capture ⟨pos, w ++ rest, groups⟩ ⟨pos', rest, groups'⟩ n =
      ⟨pos', rest, (n, w) :: groups'⟩ := by
  simp [At.capture, At.textTo]

theorem run_literal [DecidableEq α] (w : List α) (s : At α ν) (k : At α ν → Option (At α ν)) :
    run (literal w) s k = if w <+: s.rest then k (s.advance w.length) else none := by
  induction w generalizing s with
  | nil => simp [literal, run]
  | cons c w ih =>
    have hcons : run (literal (c :: w)) s k = run (char c) s fun t => run (literal w) t k := rfl
    rw [hcons, char, run]
    cases hs : s.rest with
    | nil => simp
    | cons c' cs =>
      have hrest : (s.advance 1).rest = cs := by simp [At.advance, hs]
      simp only [ih, hrest, At.advance_advance, decide_eq_true_eq, List.cons_prefix_cons,
        List.length_cons, Nat.add_comm 1]
      by_cases hc : c' = c
      · simp [hc]
      · simp [hc, Ne.symm hc]

theorem run_literal_append [DecidableEq α] (w rest : List α) (pos : Nat)
    (groups : List (ν × List α)) (k : At α ν → Option (At α ν)) :
    run (literal w) ⟨pos, w ++ rest, groups⟩ k = k ⟨pos + w.length, rest, groups⟩ := by
  rw [run_literal, if_pos (List.prefix_append w rest), At.advance, List.drop_left]

theorem matches_seq {r r' : Regex α ν} :
    Matches (.seq r r') s t ↔ ∃ u, Matches r s u ∧ Matches r' u t := by
  constructor
  · intro h
    cases h with
    | seq h h' => exact ⟨_, h, h'⟩
  · rintro ⟨u, h, h'⟩
    exact h.seq h'

theorem matches_group {n : ν} {r : Regex α ν} :
    Matches (.group n r) s t ↔ ∃ u, Matches r s u ∧ t = s.capture u n := by
  constructor
  · intro h
    cases h with
    | group h => exact ⟨_, h, rfl⟩
  · rintro ⟨u, h, rfl⟩
    exact h.group

theorem matches_oneOf :
    Matches (.oneOf p) s t ↔ ∃ c, p c = true ∧ [c] <+: s.rest ∧ t = s.advance 1 := by
  constructor
  · intro h
    cases h with
    | oneOf hs hp => exact ⟨_, hp, by simp [hs], rfl⟩
  · rintro ⟨c, hp, ⟨cs, hs⟩, rfl⟩
    exact .oneOf hs.symm hp

theorem matches_literal [DecidableEq α] {w : List α} :
    Matches (literal w) s t ↔ w <+: s.rest ∧ t = s.advance w.length := by
  induction w generalizing s with
  | nil =>
    constructor
    · intro h
      cases h
      simp
    · rintro ⟨-, rfl⟩
      rw [List.length_nil, At.advance_zero]
      exact .empty
  | cons c w ih =>
    have hcons : Matches (literal (c :: w)) s t ↔
        ∃ u, Matches (.oneOf (· = c)) s u ∧ Matches (literal w) u t := matches_seq
    simp only [hcons, matches_oneOf, ih]
    constructor
    · rintro ⟨u, ⟨c', hc, hs, rfl⟩, hw, rfl⟩
      obtain rfl : c' = c := by simpa using hc
      exact ⟨(At.cons_isPrefix_iff hs).mpr hw, At.advance_cons s c' w⟩
    · rintro ⟨hs, rfl⟩
      have hc : [c] <+: s.rest := (List.prefix_append [c] w).trans hs
      exact ⟨_, ⟨c, by simp, hc, rfl⟩, (At.cons_isPrefix_iff hc).mp hs, (At.advance_cons s c w).symm⟩

theorem matches_star_oneOf {greedy : Bool} :
    Matches (.star greedy (.oneOf p)) s t ↔
      ∃ w, (∀ c ∈ w, p c = true) ∧ w <+: s.rest ∧ t = s.advance w.length := by
  constructor
  · intro h
    generalize hr : Regex.star greedy (.oneOf p) = r at h
    induction h with
    | done => exact ⟨[], by simp⟩
    | again h _ _ _ ih =>
      cases hr
      obtain ⟨c, hc, hs, rfl⟩ := matches_oneOf.mp h
      obtain ⟨w, hw, hpre, rfl⟩ := ih rfl
      exact ⟨c :: w, List.forall_mem_cons.mpr ⟨hc, hw⟩, (At.cons_isPrefix_iff hs).mpr hpre,
        At.advance_cons _ c w⟩
    | empty | oneOf | textStart | textEnd | seq | left | right | group => cases hr
  · rintro ⟨w, hw, hpre, rfl⟩
    induction w generalizing s with
    | nil => simpa using Matches.done
    | cons c w ih =>
      obtain ⟨hc, hw⟩ := List.forall_mem_cons.mp hw
      have hs : [c] <+: s.rest := (List.prefix_append [c] w).trans hpre
      have htail := ih (s := s.advance 1) hw ((At.cons_isPrefix_iff hs).mp hpre)
      rw [At.advance_cons s c w] at htail
      refine (matches_oneOf.mpr ⟨c, hc, hs, rfl⟩).again ?_ htail
      rw [At.rest_advance hs]
      exact Nat.lt_succ_self _

theorem matches_oneOrMore_oneOf :
    Matches (oneOrMore (.oneOf p)) s t ↔
      ∃ w, w ≠ [] ∧ (∀ c ∈ w, p c = true) ∧ w <+: s.rest ∧ t = s.advance w.length := by
  rw [oneOrMore, matches_seq]
  constructor
  · rintro ⟨u, h, h'⟩
    obtain ⟨c, hc, hs, rfl⟩ := matches_oneOf.mp h
    obtain ⟨w, hw, hpre, rfl⟩ := matches_star_oneOf.mp h'
    exact ⟨c :: w, List.cons_ne_nil c w, List.forall_mem_cons.mpr ⟨hc, hw⟩,
      (At.cons_isPrefix_iff hs).mpr hpre, At.advance_cons s c w⟩
  · rintro ⟨w, hne, hw, hpre, rfl⟩
    cases w with
    | nil => exact absurd rfl hne
    | cons c w =>
      obtain ⟨hc, hw⟩ := List.forall_mem_cons.mp hw
      have hs : [c] <+: s.rest := (List.prefix_append [c] w).trans hpre
      exact ⟨_, matches_oneOf.mpr ⟨c, hc, hs, rfl⟩, matches_star_oneOf.mpr
        ⟨w, hw, (At.cons_isPrefix_iff hs).mp hpre, (At.advance_cons s c w).symm⟩⟩

/-- A repetition of what does not match here. -/
theorem run_star_of_none {greedy : Bool} {r : Regex α ν} (k : At α ν → Option (At α ν))
    (h : ∀ k, run r s k = none) : run (.star greedy r) s k = k s := by
  rw [run_star, goOn, h, Option.none_or, Option.or_none, ite_self]

theorem goOn_oneOf_cons (greedy : Bool) (pos : Nat) (c : α) (cs : List α)
    (groups : List (ν × List α)) (k : At α ν → Option (At α ν)) :
    goOn greedy (.oneOf p) ⟨pos, c :: cs, groups⟩ k =
      if p c then run (.star greedy (.oneOf p)) ⟨pos + 1, cs, groups⟩ k else none := by
  rw [goOn, run_oneOf_cons]
  simp only [List.length_cons, Nat.lt_succ_self, if_true]

/-- A greedy repetition takes all it can, when the rest of the expression goes on from there. -/
theorem run_star_greedy {w rest : List α} {pos : Nat} {groups : List (ν × List α)}
    {k : At α ν → Option (At α ν)} (hw : ∀ c ∈ w, p c = true)
    (hrest : ∀ c ∈ rest.head?, p c = false) (hk : k ⟨pos + w.length, rest, groups⟩ = some t) :
    run (.star true (.oneOf p)) ⟨pos, w ++ rest, groups⟩ k = some t := by
  induction w generalizing pos with
  | nil =>
    rw [run_star_of_none]
    · exact hk
    · intro k
      cases rest with
      | nil => rfl
      | cons c rest => simp [run, hrest c rfl]
  | cons c w ih =>
    obtain ⟨hc, hw⟩ := List.forall_mem_cons.mp hw
    rw [List.length_cons, Nat.add_comm w.length, ← Nat.add_assoc] at hk
    rw [List.cons_append, run_star, if_pos rfl, goOn_oneOf_cons, if_pos hc, ih hw hk,
      Option.some_or]

theorem run_group_star_greedy {w rest : List α} {pos : Nat} {groups : List (ν × List α)} {n : ν}
    {k : At α ν → Option (At α ν)} (hw : ∀ c ∈ w, p c = true)
    (hrest : ∀ c ∈ rest.head?, p c = false)
    (hk : k ⟨pos + w.length, rest, (n, w) :: groups⟩ = some t) :
    run (.group n (.star true (.oneOf p))) ⟨pos, w ++ rest, groups⟩ k = some t := by
  rw [run_group]
  refine run_star_greedy hw hrest ?_
  rwa [At.capture_append]

theorem run_group_oneOrMore {w rest : List α} {pos : Nat} {groups : List (ν × List α)} {n : ν}
    {k : At α ν → Option (At α ν)} (hne : w ≠ []) (hw : ∀ c ∈ w, p c = true)
    (hrest : ∀ c ∈ rest.head?, p c = false)
    (hk : k ⟨pos + w.length, rest, (n, w) :: groups⟩ = some t) :
    run (.group n (oneOrMore (.oneOf p))) ⟨pos, w ++ rest, groups⟩ k = some t := by
  cases w with
  | nil => exact absurd rfl hne
  | cons c w =>
    obtain ⟨hc, hw⟩ := List.forall_mem_cons.mp hw
    rw [List.length_cons, Nat.add_comm w.length, ← Nat.add_assoc] at hk
    rw [run_group, oneOrMore, run_seq, List.cons_append, run_oneOf_cons, if_pos hc]
    refine run_star_greedy hw hrest ?_
    rwa [← List.cons_append, At.capture_append]

/-- A lazy repetition takes one more when the rest of the expression does not match here. -/
theorem run_star_lazy {c : α} {cs : List α} {pos : Nat} {groups : List (ν × List α)}
    {k : At α ν → Option (At α ν)} (hstop : k ⟨pos, c :: cs, groups⟩ = none) (hc : p c = true)
    (hk : k ⟨pos + 1, cs, groups⟩ = some t) :
    run (.star false (.oneOf p)) ⟨pos, c :: cs, groups⟩ k = some t := by
  have hnext : run (.star false (.oneOf p)) ⟨pos + 1, cs, groups⟩ k = some t := by
    rw [run_star, if_neg Bool.false_ne_true, hk, Option.some_or]
  rw [run_star, if_neg Bool.false_ne_true, hstop, Option.none_or, goOn_oneOf_cons, if_pos hc,
    hnext]

theorem run_times_of_not {c : α} {n : Nat} (hc : c ∈ s.rest.take n) (hp : p c = false)
    (k : At α ν → Option (At α ν)) : run (times n (.oneOf p)) s k = none := by
  induction n generalizing s with
  | zero => simp at hc
  | succ n ih =>
    obtain ⟨pos, rest, groups⟩ := s
    cases rest with
    | nil => simp at hc
    | cons c' cs =>
      rw [times, run_seq, run_oneOf_cons]
      rcases List.mem_cons.mp hc with rfl | hc
      · rw [hp, if_neg Bool.false_ne_true]
      · rw [ih (s := ⟨pos + 1, cs, groups⟩) hc, ite_self]

end Shapes

end Regex

end Promscale.Lib
