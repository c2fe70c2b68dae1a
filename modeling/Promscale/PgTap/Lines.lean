import Promscale.Lib.Fallible
import Promscale.Lib.Related
import Promscale.PgTap.Parse

/-!
# What the patterns find in a line

The plan pattern has no anchor: a line is a plan as soon as two dots stand between digits
somewhere in it. The line of a result begins with its outcome and its number, and whatever
follows is its name, without the dash.
-/
namespace Promscale.PgTap

open Promscale.Lib

variable {crate : RegexCrate} {text : List Char}

/-- Two dots between digits. -/
def HasRange (crate : RegexCrate) (text : List Char) : Prop :=
  ∃ d e, crate.digit d = true ∧ crate.digit e = true ∧ [d, '.', '.', e] <:+: text

/-- An outcome with a number. -/
def HasResult (crate : RegexCrate) (text : List Char) : Prop :=
  ∃ d, crate.digit d = true ∧ ['o', 'k', ' ', d] <:+: text

theorem HasRange.mono {text' : List Char} (h : HasRange crate text) (hinf : text <:+: text') :
    HasRange crate text' := by
  obtain ⟨d, e, hd, he, hrange⟩ := h
  exact ⟨d, e, hd, he, hrange.trans hinf⟩

theorem not_mem_range {d e c : Char} (hd : crate.digit d = true) (he : crate.digit e = true)
    (hc : crate.digit c = false) (hdot : c ≠ '.') : c ∉ [d, '.', '.', e] := by
  simp only [List.mem_cons, List.not_mem_nil, or_false, not_or]
  refine ⟨?_, hdot, hdot, ?_⟩
  · rintro rfl
    simp [hc] at hd
  · rintro rfl
    simp [hc] at he

theorem HasResult.mono {text' : List Char} (h : HasResult crate text) (hinf : text <:+: text') :
    HasResult crate text' := by
  obtain ⟨d, hd, hresult⟩ := h
  exact ⟨d, hd, hresult.trans hinf⟩

/-! ## Classes -/

theorem digit_of_isDigit (h : crate.Documented) {c : Char} (hc : c.isDigit = true) :
    crate.digit c = true := by
  rw [h.digit_ascii c, hc]
  have hle : c.toNat ≤ 57 := (Bool.and_eq_true_iff.mp hc).2 |> of_decide_eq_true
  omega

theorem not_digit (h : crate.Documented) {c : Char} (hc : c.toNat < 128)
    (hdigit : c.isDigit = false) : crate.digit c = false := by
  rw [h.digit_ascii c hc, hdigit]

theorem not_space (h : crate.Documented) {c : Char} (hc : c.toNat < 128)
    (hspace : c ∉ [' ', '\t', '\n', '\x0b', '\x0c', '\r']) : crate.space c = false :=
  Bool.eq_false_iff.mpr fun hs => hspace ((h.space_ascii c hc).mp hs)

/-- There is no subtest where less than four blanks stand. -/
theorem run_nestings {c : Char} {s : Regex.At Char Group} (hc : c ∈ s.rest.take 4)
    (hspace : crate.space c = false)
    (k : Regex.At Char Group → Option (Regex.At Char Group)) :
    Regex.run (nestings crate) s k = k s :=
  Regex.run_star_of_none k fun _ => Regex.run_times_of_not hc hspace _

/-! ## Plans -/

theorem hasRange_of_matches {s t : Regex.At Char Group}
    (h : Regex.Matches (planRe crate) s t) : HasRange crate s.rest := by
  obtain ⟨s₁, h₁, h⟩ := Regex.matches_seq.mp h
  obtain ⟨s₂, h₂, h⟩ := Regex.matches_seq.mp h
  obtain ⟨s₃, h₃, h⟩ := Regex.matches_seq.mp h
  obtain ⟨s₄, h₄, h₅⟩ := Regex.matches_seq.mp h
  obtain ⟨u, hu, rfl⟩ := Regex.matches_group.mp h₃
  obtain ⟨w, hne, hw, hpre, rfl⟩ := Regex.matches_oneOrMore_oneOf.mp hu
  obtain ⟨hdots, rfl⟩ := Regex.matches_literal.mp h₄
  obtain ⟨u', hu', -⟩ := Regex.matches_group.mp h₅
  obtain ⟨w', hne', hw', hpre', -⟩ := Regex.matches_oneOrMore_oneOf.mp hu'
  obtain ⟨w, d, rfl⟩ := (List.eq_nil_or_concat' w).resolve_left hne
  obtain ⟨e, w', rfl⟩ := List.exists_cons_of_ne_nil hne'
  obtain ⟨more, hmore⟩ := hpre'
  have hrest := Regex.At.rest_advance hpre
  have hrest' := Regex.At.rest_advance hdots
  refine ⟨d, e, hw d (by simp), hw' e List.mem_cons_self,
    List.IsInfix.trans ⟨w, w' ++ more, ?_⟩ (h₂.suffix.trans h₁.suffix).isInfix⟩
  calc w ++ [d, '.', '.', e] ++ (w' ++ more)
      = w ++ [d] ++ (['.', '.'] ++ (e :: w' ++ more)) := by simp
    _ = s₂.rest := by
        rw [hmore, ← hrest']
        exact hrest.symm

theorem matches_of_hasRange (hline : '\n' ∉ text) (h : HasRange crate text) :
    ∃ t, Regex.Matches (planRe crate) ⟨0, text, []⟩ t := by
  obtain ⟨d, e, hd, he, before, after, rfl⟩ := h
  have hbefore : ∀ c ∈ before, decide (c ≠ '\n') = true := by
    intro c hc
    refine decide_eq_true fun heq => hline ?_
    rw [heq] at hc
    simp [hc]
  refine ⟨_, Regex.matches_seq.mpr ⟨_, Regex.matches_star_oneOf.mpr ⟨before, hbefore, ?_, rfl⟩,
    .seq .done (.seq (Regex.matches_group.mpr ⟨_, Regex.matches_oneOrMore_oneOf.mpr
      ⟨[d], List.cons_ne_nil _ _, by simpa using hd, ?_, rfl⟩, rfl⟩)
    (.seq (Regex.matches_literal.mpr ⟨?_, rfl⟩) (Regex.matches_group.mpr ⟨_,
      Regex.matches_oneOrMore_oneOf.mpr ⟨[e], List.cons_ne_nil _ _, by simpa using he, ?_, rfl⟩,
      rfl⟩)))⟩⟩
  all_goals simp [Regex.At.advance, Regex.At.capture]

/-- A line is no plan exactly when no two dots stand between digits. -/
theorem captures_planRe_eq_none_iff (h : crate.Documented) (hline : '\n' ∉ text) :
    crate.captures (planRe crate) text = none ↔ ¬ HasRange crate text := by
  rw [h.leftmost_first _ _ rfl, Option.map_eq_none_iff]
  constructor
  · intro hnone hrange
    obtain ⟨t, ht⟩ := matches_of_hasRange hline hrange
    simpa [hnone] using ht.search
  · intro hrange
    by_contra hsome
    obtain ⟨t, ht⟩ := Option.ne_none_iff_exists'.mp hsome
    obtain ⟨s, hs, hsuffix, -⟩ := Regex.matches_of_search ht
    obtain ⟨d, e, hd, he, hinf⟩ := hasRange_of_matches hs
    exact hrange ⟨d, e, hd, he, hinf.trans hsuffix.isInfix⟩

theorem search_plan (h : crate.Documented) {ds : List Char} (hne : ds ≠ [])
    (hds : ∀ c ∈ ds, crate.digit c = true) :
    (planRe crate).search (' ' :: '1' :: '.' :: '.' :: ds) =
      some ⟨4 + ds.length, [], [(.end, ds), (.start, ['1'])]⟩ := by
  have hspace : crate.space '1' = false := not_space h (by decide) (by decide)
  have hdot : crate.digit '.' = false := not_digit h (by decide) (by decide)
  have hblank : crate.digit ' ' = false := not_digit h (by decide) (by decide)
  have hone : crate.digit '1' = true := digit_of_isDigit h (by decide)
  apply Regex.search_eq_of_run
  rw [planRe, Regex.run_seq]
  refine Regex.run_star_lazy ?_ (by decide) ?_
  · -- the digits do not begin at the blank
    rw [Regex.run_seq, run_nestings (c := '1') (by simp) hspace, Regex.run_seq, Regex.run_group,
      digits, Regex.oneOrMore, Regex.run_seq, Regex.run_oneOf_cons, hblank]
    rfl
  · rw [Regex.run_seq, run_nestings (c := '1') (by simp) hspace, Regex.run_seq]
    refine Regex.run_group_oneOrMore (w := ['1']) (List.cons_ne_nil _ _) (by simpa using hone)
      (by simpa using hdot) ?_
    rw [Regex.run_seq]
    refine (Regex.run_literal_append ['.', '.'] ds _ _ _).trans ?_
    rw [← List.append_nil ds]
    refine Regex.run_group_oneOrMore hne hds (by simp) ?_
    simp [Nat.add_comm]

/-! ## Results -/

def TestResult.word : TestResult → List Char
  | .pass => OK
  | .fail => NOT_OK

/-- The name, if the dash in front of it is one. -/
def afterDash (text : List Char) : List Char :=
  if DASH <+: text then text.drop DASH.length else text

theorem hasResult_of_matches {s t : Regex.At Char Group}
    (h : Regex.Matches (resultRe crate) s t) : HasResult crate s.rest := by
  obtain ⟨s₁, h₁, h⟩ := Regex.matches_seq.mp h
  obtain ⟨s₂, h₂, h⟩ := Regex.matches_seq.mp h
  obtain ⟨s₃, h₃, h⟩ := Regex.matches_seq.mp h
  obtain ⟨s₄, h₄, h⟩ := Regex.matches_seq.mp h
  obtain ⟨s₅, h₅, h⟩ := Regex.matches_seq.mp h
  obtain ⟨s₆, h₆, -⟩ := Regex.matches_seq.mp h
  have hok : ∃ w, s₃.rest = w ++ (['o', 'k'] ++ s₄.rest) := by
    obtain ⟨u, hu, rfl⟩ := Regex.matches_group.mp h₄
    cases hu with
    | left hu =>
      obtain ⟨hpre, rfl⟩ := Regex.matches_literal.mp hu
      exact ⟨['n', 'o', 't', ' '], Regex.At.rest_advance hpre⟩
    | right hu =>
      obtain ⟨hpre, rfl⟩ := Regex.matches_literal.mp hu
      exact ⟨[], Regex.At.rest_advance hpre⟩
  obtain ⟨w, hw⟩ := hok
  obtain ⟨hblank, rfl⟩ := Regex.matches_literal.mp h₅
  obtain ⟨u, hu, -⟩ := Regex.matches_group.mp h₆
  obtain ⟨ds, hne, hds, ⟨more, hmore⟩, -⟩ := Regex.matches_oneOrMore_oneOf.mp hu
  obtain ⟨d, ds, rfl⟩ := List.exists_cons_of_ne_nil hne
  have hsuffix := (h₃.suffix.trans h₂.suffix).trans h₁.suffix
  refine ⟨d, hds d List.mem_cons_self, List.IsInfix.trans ⟨w, ds ++ more, ?_⟩ hsuffix.isInfix⟩
  calc w ++ ['o', 'k', ' ', d] ++ (ds ++ more)
      = w ++ (['o', 'k'] ++ ([' '] ++ (d :: ds ++ more))) := by simp
    _ = s₃.rest := by
        rw [hw, hmore]
        exact congrArg (fun l => w ++ (['o', 'k'] ++ l)) (Regex.At.rest_advance hblank).symm

/-- A text without an outcome and its number is no result. -/
theorem captures_resultRe_eq_none (h : crate.Documented) (hresult : ¬ HasResult crate text) :
    crate.captures (resultRe crate) text = none := by
  rw [h.leftmost_first _ _ rfl, Option.map_eq_none_iff]
  by_contra hsome
  obtain ⟨t, ht⟩ := Option.ne_none_iff_exists'.mp hsome
  obtain ⟨s, hs, hsuffix, -⟩ := Regex.matches_of_search ht
  obtain ⟨d, hd, hinf⟩ := hasResult_of_matches hs
  exact hresult ⟨d, hd, hinf.trans hsuffix.isInfix⟩

section Result
variable {pos : Nat} {tail : List Char} {groups : List (Group × List Char)}

theorem run_outcome (result : TestResult) {rest : List Char}
    {k : Regex.At Char Group → Option (Regex.At Char Group)} {t : Regex.At Char Group}
    (hk : k ⟨pos + result.word.length, rest, (.result, result.word) :: groups⟩ = some t) :
    Regex.run (.group .result (.alt (.literal NOT_OK) (.literal OK)))
      ⟨pos, result.word ++ rest, groups⟩ k = some t := by
  rw [Regex.run_group, Regex.run_alt]
  cases result with
  | pass =>
    rw [Regex.run_literal NOT_OK, if_neg (by simp [NOT_OK, OK, TestResult.word]), Option.none_or,
      TestResult.word, Regex.run_literal_append, Regex.At.capture_append]
    exact hk
  | fail =>
    rw [TestResult.word, Regex.run_literal_append, Regex.At.capture_append]
    rw [TestResult.word] at hk
    rw [hk, Option.some_or]

theorem run_name (hline : '\n' ∉ tail) :
    Regex.run (.seq (.group .name (.star true dot)) .textEnd) ⟨pos, tail, groups⟩ some =
      some ⟨pos + tail.length, [], (.name, tail) :: groups⟩ := by
  have hdot : ∀ c ∈ tail, decide (c ≠ '\n') = true :=
    fun c hc => decide_eq_true fun heq => hline (heq ▸ hc)
  rw [Regex.run_seq]
  conv_lhs => rw [← List.append_nil tail]
  exact Regex.run_group_star_greedy hdot (by simp) rfl

theorem run_tail (hline : '\n' ∉ tail) :
    Regex.run (.seq (.zeroOrOne (.literal DASH)) (.seq (.group .name (.star true dot)) .textEnd))
      ⟨pos, tail, groups⟩ some =
      some ⟨pos + tail.length, [], (.name, afterDash tail) :: groups⟩ := by
  rw [Regex.run_seq, Regex.zeroOrOne, Regex.run_alt]
  by_cases hdash : DASH <+: tail
  · obtain ⟨name, rfl⟩ := hdash
    have hname : '\n' ∉ name := fun hc => hline (List.mem_append_right _ hc)
    rw [Regex.run_literal_append, run_name hname, Option.some_or, afterDash,
      if_pos (List.prefix_append _ _), List.drop_left, List.length_append, Nat.add_assoc]
  · rw [Regex.run_literal, if_neg hdash, Option.none_or, afterDash, if_neg hdash]
    exact run_name hline

end Result

/-- What follows the number of a result is its name. -/
theorem search_result (h : crate.Documented) (result : TestResult) {ds tail : List Char}
    (hne : ds ≠ []) (hds : ∀ c ∈ ds, crate.digit c = true)
    (htail : ∀ c ∈ tail.head?, crate.digit c = false) (hline : '\n' ∉ tail) :
    ∃ t, (resultRe crate).search (' ' :: (result.word ++ ' ' :: (ds ++ tail))) = some t ∧
      t.groups = [(.name, afterDash tail), (.number, ds), (.result, result.word)] := by
  obtain ⟨c, w, hword, hspace⟩ : ∃ c w, result.word = c :: w ∧ crate.space c = false := by
    cases result with
    | pass => exact ⟨'o', ['k'], rfl, not_space h (by decide) (by decide)⟩
    | fail => exact ⟨'n', ['o', 't', ' ', 'o', 'k'], rfl, not_space h (by decide) (by decide)⟩
  refine ⟨⟨0 + 1 + result.word.length + 1 + ds.length + tail.length, [], _⟩,
    Regex.search_eq_of_run ?_, rfl⟩
  rw [resultRe, Regex.run_seq, Regex.run_textStart, if_pos rfl, Regex.run_seq]
  refine Regex.run_star_lazy ?_ (by decide) ?_
  · -- no outcome begins with a blank
    rw [Regex.run_seq, run_nestings (c := c) (by simp [hword]) hspace, Regex.run_seq,
      Regex.run_group, Regex.run_alt, Regex.run_literal, Regex.run_literal,
      if_neg (by simp [NOT_OK]), if_neg (by simp [OK]), Option.or_none]
  · rw [Regex.run_seq, run_nestings (c := c) (by simp [hword]) hspace, Regex.run_seq]
    refine run_outcome result ?_
    rw [Regex.run_seq]
    refine (Regex.run_literal_append [' '] (ds ++ tail) _ _ _).trans ?_
    rw [Regex.run_seq]
    refine Regex.run_group_oneOrMore hne hds htail ?_
    exact run_tail hline

/-! ## What is read -/

theorem isDigit_of_mem_toDigits (n : Nat) {c : Char} (hc : c ∈ Nat.toDigits 10 n) :
    c.isDigit = true :=
  Nat.isDigit_of_mem_toDigits (by decide) (by decide) hc

theorem parseDigits_of_isDigit {n : Nat} {ds : List Char} (hds : ∀ c ∈ ds, c.isDigit = true)
    (hn : n < USIZE_BOUND) :
    parseDigits n ds = if Nat.ofDigitChars 10 ds n < USIZE_BOUND
      then .ok (Nat.ofDigitChars 10 ds n) else .error .posOverflow := by
  induction ds generalizing n with
  | nil => simp [parseDigits, hn]
  | cons c cs ih =>
    obtain ⟨hc, hcs⟩ := List.forall_mem_cons.mp hds
    rw [parseDigits, if_neg (not_not_intro hc), Nat.ofDigitChars_cons]
    split
    · exact ih hcs ‹_›
    · have hle : 10 * n + (c.toNat - '0'.toNat) ≤
          Nat.ofDigitChars 10 cs (10 * n + (c.toNat - '0'.toNat)) := by
        rw [Nat.ofDigitChars_eq_ofDigitChars_zero]
        have hpos : 0 < 10 ^ cs.length := Nat.pos_of_ne_zero (by simp)
        exact Nat.le_trans (Nat.le_mul_of_pos_left _ hpos) (Nat.le_add_right _ _)
      rw [if_neg (by omega)]

theorem parseUsize_toDigits (n : Nat) :
    parseUsize (Nat.toDigits 10 n) =
      if n < USIZE_BOUND then .ok n else .error .posOverflow := by
  have hds : ∀ c ∈ Nat.toDigits 10 n, c.isDigit = true := fun c => isDigit_of_mem_toDigits n
  obtain ⟨c, cs, hcons⟩ := List.exists_cons_of_ne_nil (Nat.toDigits_ne_nil (n := n) (b := 10))
  have hc : c ≠ '+' := by
    rintro rfl
    exact absurd (hds '+' (by simp [hcons])) (by decide)
  have hparse : parseUsize (Nat.toDigits 10 n) = parseDigits 0 (Nat.toDigits 10 n) := by
    rw [hcons, parseUsize]
    · simp
    · simp [hc]
    · simp [hc]
  rw [hparse, parseDigits_of_isDigit hds (by decide), Nat.ofDigitChars_ten_toDigits]

theorem readSubline_eq_none (h : crate.Documented) (hresult : ¬ HasResult crate text) :
    readSubline crate text = .ok none := by
  rw [readSubline, captures_resultRe_eq_none h hresult]

theorem readSubline_result (h : crate.Documented) (result : TestResult) {ds tail : List Char}
    (hne : ds ≠ []) (hds : ∀ c ∈ ds, crate.digit c = true)
    (htail : ∀ c ∈ tail.head?, crate.digit c = false) (hline : '\n' ∉ tail) :
    readSubline crate (' ' :: (result.word ++ ' ' :: (ds ++ tail))) =
      .ok (some ⟨afterDash tail, result⟩) := by
  obtain ⟨t, ht, hgroups⟩ := search_result h result hne hds htail hline
  have hnesting : t.name .nesting = none := by rw [Regex.At.name, hgroups]; rfl
  have hresult : t.name .result = some result.word := by rw [Regex.At.name, hgroups]; rfl
  have hname : t.name .name = some (afterDash tail) := by rw [Regex.At.name, hgroups]; rfl
  rw [readSubline, h.leftmost_first _ _ rfl, ht]
  simp only [Option.map_some, nestingLevel, hnesting, hresult, hname]
  cases result <;> rfl

/-- The name of a result stands in the piece it is read from. -/
theorem infix_of_readSubline (h : crate.Documented) {test : PgTapTest}
    (hread : readSubline crate text = .ok (some test)) : test.testName <:+: text := by
  rw [readSubline, h.leftmost_first _ _ rfl] at hread
  cases ht : (resultRe crate).search text with
  | none => simp [ht] at hread
  | some t =>
    simp only [ht, Option.map_some] at hread
    split at hread
    · simp at hread
    · obtain ⟨word, -, hread⟩ := bind_eq_ok hread
      obtain ⟨result, -, hread⟩ := bind_eq_ok hread
      obtain ⟨name, hname, hread⟩ := bind_eq_ok hread
      cases hread
      refine Regex.infix_of_search ht (n := .name) ?_
      cases hn : t.name .name with
      | none => simp [hn, unwrap] at hname
      | some w =>
        rw [hn] at hname
        cases hname
        rfl

/-! ## What a line adds -/

/-- The results a line adds to the list. -/
inductive Gives (crate : RegexCrate) (line : List Char) : List PgTapTest → Prop
  | plan {captures : Group → Option (List Char)}
      (found : crate.captures (planRe crate) line = some captures) : Gives crate line []
  | results {reads : List (Option PgTapTest)}
      (missed : crate.captures (planRe crate) line = none)
      (read : List.Forall₂ (fun subline read => readSubline crate subline = .ok read)
        (split SEPARATOR line) reads) : Gives crate line (reads.flatMap Option.toList)

theorem pushSublines_effects {sublines : List (List Char)} {testResults out : List PgTapTest}
    (h : sublines.foldlM (pushSubline crate) testResults = .ok out) :
    ∃ reads, List.Forall₂ (fun subline read => readSubline crate subline = .ok read)
      sublines reads ∧ out = testResults ++ reads.flatMap Option.toList := by
  induction sublines generalizing testResults with
  | nil =>
    cases h
    exact ⟨[], .nil, by simp⟩
  | cons subline sublines ih =>
    rw [List.foldlM_cons] at h
    obtain ⟨pushed, hpush, h⟩ := bind_eq_ok h
    obtain ⟨read, hread, hpush⟩ := bind_eq_ok hpush
    cases hpush
    obtain ⟨reads, hreads, rfl⟩ := ih h
    exact ⟨read :: reads, .cons hread hreads, by simp⟩

theorem pushSublines_of_noResult (h : crate.Documented) {sublines : List (List Char)}
    (hs : ∀ s ∈ sublines, ¬ HasResult crate s) (testResults : List PgTapTest) :
    sublines.foldlM (pushSubline crate) testResults = .ok testResults := by
  induction sublines with
  | nil => rfl
  | cons s sublines ih =>
    obtain ⟨hs, hsublines⟩ := List.forall_mem_cons.mp hs
    have hfirst : pushSubline crate testResults s = .ok testResults := by
      rw [pushSubline, readSubline_eq_none h hs]
      exact congrArg Except.ok (List.append_nil _)
    rw [List.foldlM_cons, hfirst]
    exact ih hsublines

theorem inspectLine_effects {seen seen' : Seen} {line : List Char}
    (h : inspectLine crate seen line = .ok seen') :
    ∃ out, Gives crate line out ∧ seen'.testResults = seen.testResults ++ out := by
  rw [inspectLine] at h
  split at h
  · refine ⟨[], .plan ‹_›, ?_⟩
    rw [List.append_nil]
    split at h
    · cases h
      rfl
    · obtain ⟨digits, -, h⟩ := bind_eq_ok h
      obtain ⟨planned, -, h⟩ := bind_eq_ok h
      cases h
      rfl
  · obtain ⟨out, hout, h⟩ := bind_eq_ok h
    cases h
    obtain ⟨reads, hreads, rfl⟩ := pushSublines_effects hout
    exact ⟨_, .results ‹_› hreads, rfl⟩

theorem inspectLines_effects {ls : List (List Char)} {seen seen' : Seen}
    (h : ls.foldlM (inspectLine crate) seen = .ok seen') :
    ∃ outs, List.Forall₂ (Gives crate) ls outs ∧
      seen'.testResults = seen.testResults ++ outs.flatten := by
  induction ls generalizing seen with
  | nil =>
    cases h
    exact ⟨[], .nil, by simp⟩
  | cons line ls ih =>
    rw [List.foldlM_cons] at h
    obtain ⟨seen₁, hline, h⟩ := bind_eq_ok h
    obtain ⟨out, hout, heq⟩ := inspectLine_effects hline
    obtain ⟨outs, houts, heq'⟩ := ih h
    exact ⟨out :: outs, .cons hout houts, by rw [heq', heq]; simp⟩

/-- What is read from a line looks like no plan: the line does not either. -/
theorem Gives.noRange (h : crate.Documented) {line : List Char} {out : List PgTapTest}
    (hgives : Gives crate line out) (hline : '\n' ∉ line) :
    ∀ test ∈ out, ¬ HasRange crate test.testName := by
  cases hgives with
  | plan found => simp
  | results missed read =>
    intro test htest hrange
    obtain ⟨found, hfound, htest⟩ := List.mem_flatMap.mp htest
    obtain ⟨subline, hsubline, hread⟩ := exists_left read hfound
    rw [Option.mem_toList] at htest
    cases htest
    refine (captures_planRe_eq_none_iff h hline).mp missed (hrange.mono ?_)
    exact (infix_of_readSubline h hread).trans (infix_of_mem_split hsubline)

end Promscale.PgTap
