import Promscale.PgTap.Lines

/-!
# Reports

A report as `psql` prints it, each line one blank in: a plan, results, and lines that are neither,
such as the head of a table. The parser reads back exactly the results listed if no name looks
like a plan or like the boundary of a table column, and in no other report.
-/
namespace Promscale.PgTap

open Promscale.Lib

variable {crate : RegexCrate}

/-- The line of a result. -/
structure TestLine where
  testResult : TestResult
  number : Nat
  testName : List Char
  oneLine : '\n' ∉ testName

namespace TestLine

def head (t : TestLine) : List Char :=
  ' ' :: (t.testResult.word ++ ' ' :: Nat.toDigits 10 t.number)

def tail (t : TestLine) : List Char := if t.testName = [] then [] else DASH ++ t.testName

def text (t : TestLine) : List Char := t.head ++ t.tail

def test (t : TestLine) : PgTapTest := ⟨t.testName, t.testResult⟩

/-- The name looks neither like a plan nor like the boundary of a column, and does not end in half
of a line end. -/
structure Legible (crate : RegexCrate) (t : TestLine) : Prop where
  noRange : ¬ HasRange crate t.testName
  noSeparator : ¬ SEPARATOR <:+: ' ' :: t.testName
  noCarriageReturn : t.testName.getLast? ≠ some '\r'

end TestLine

/-- A line that is neither a plan nor a result. -/
structure Aside (crate : RegexCrate) where
  text : List Char
  oneLine : '\n' ∉ text
  noRange : ¬ HasRange crate text
  noResult : ¬ HasResult crate text

inductive ReportLine (crate : RegexCrate) where
  | test (t : TestLine)
  | aside (a : Aside crate)

namespace ReportLine

def text : ReportLine crate → List Char
  | .test t => t.text
  | .aside a => a.text

def testLines : ReportLine crate → List TestLine
  | .test t => [t]
  | .aside _ => []

end ReportLine

def planLine (planned : Nat) : List Char := ' ' :: '1' :: '.' :: '.' :: Nat.toDigits 10 planned

/-- A report, with its plan between what comes before it and what comes after it. -/
structure Report (crate : RegexCrate) where
  planned : Nat
  before : List (ReportLine crate)
  after : List (ReportLine crate)

namespace Report

def lines (report : Report crate) : List (List Char) :=
  report.before.map (·.text) ++ planLine report.planned :: report.after.map (·.text)

def text (report : Report crate) : List Char := report.lines.flatMap endLine

def testLines (report : Report crate) : List TestLine :=
  (report.before ++ report.after).flatMap (·.testLines)

def tests (report : Report crate) : List PgTapTest := report.testLines.map (·.test)

end Report

/-! ## The line of a result -/

namespace TestLine

/-- In front of the name there are blanks, the outcome and digits. -/
theorem not_mem_head (t : TestLine) {c : Char} (hc : c.isDigit = false)
    (hword : c ∉ [' ', 'n', 'o', 't', 'k']) : c ∉ t.head := by
  have hdigits : c ∉ Nat.toDigits 10 t.number := by
    intro hmem
    rw [isDigit_of_mem_toDigits t.number hmem] at hc
    cases hc
  simp only [List.mem_cons, List.not_mem_nil, or_false, not_or] at hword
  obtain ⟨hblank, hn, ho, ht, hk⟩ := hword
  cases hr : t.testResult <;>
    simp [head, hr, TestResult.word, OK, NOT_OK, hblank, hn, ho, ht, hk, hdigits]

theorem getLast?_head (t : TestLine) {c : Char} (hc : c.isDigit = false) :
    t.head.getLast? ≠ some c := by
  intro hlast
  have hne : Nat.toDigits 10 t.number ≠ [] := Nat.toDigits_ne_nil
  have happend : t.head = (' ' :: (t.testResult.word ++ [' '])) ++ Nat.toDigits 10 t.number := by
    simp [head]
  rw [happend, List.getLast?_append_of_ne_nil _ hne] at hlast
  rw [isDigit_of_mem_toDigits t.number (List.mem_of_getLast? hlast)] at hc
  cases hc

theorem count_tail (t : TestLine) {c : Char} (hc : c ∉ DASH) :
    t.tail.count c = t.testName.count c := by
  rw [tail]
  split
  · rw [‹t.testName = []›]
  · rw [List.count_append, List.count_eq_zero_of_not_mem hc, Nat.zero_add]

theorem newline_not_mem_tail (t : TestLine) : '\n' ∉ t.tail := by
  rw [tail]
  split
  · simp
  · simpa [DASH] using t.oneLine

theorem newline_not_mem (t : TestLine) : '\n' ∉ t.text := by
  rw [text, List.mem_append, not_or]
  exact ⟨t.not_mem_head (by decide) (by decide), t.newline_not_mem_tail⟩

theorem afterDash_tail (t : TestLine) : afterDash t.tail = t.testName := by
  rw [tail]
  split
  · rw [‹t.testName = []›]
    rfl
  · rw [afterDash, if_pos (List.prefix_append _ _), List.drop_left]

/-- What contains no dash stands in front of the name or in it. -/
theorem infix_text (t : TestLine) {w : List Char} (hw : w <:+: t.text) (hdash : '-' ∉ w) :
    w <:+: t.head ++ [' '] ∨ w <:+: ' ' :: t.testName := by
  by_cases hname : t.testName = []
  · rw [text, tail, if_pos hname, List.append_nil] at hw
    exact .inl (hw.trans (List.prefix_append _ _).isInfix)
  · have htext : t.text = (t.head ++ [' ']) ++ '-' :: ' ' :: t.testName := by
      simp [text, tail, hname, DASH]
    rw [htext] at hw
    exact infix_append_cons hw hdash

theorem noRange_text (h : crate.Documented) (t : TestLine) (ht : ¬ HasRange crate t.testName) :
    ¬ HasRange crate t.text := by
  rintro ⟨d, e, hd, he, hrange⟩
  have hdash : '-' ∉ [d, '.', '.', e] :=
    not_mem_range hd he (not_digit h (by decide) (by decide)) (by decide)
  have hblank : ' ' ∉ [d, '.', '.', e] :=
    not_mem_range hd he (not_digit h (by decide) (by decide)) (by decide)
  rcases t.infix_text hrange hdash with hrange | hrange
  · have hmem : '.' ∈ t.head ++ [' '] := hrange.subset (by simp)
    rw [List.mem_append] at hmem
    exact hmem.elim (t.not_mem_head (by decide) (by decide)) (by decide)
  · rw [← List.nil_append (' ' :: t.testName)] at hrange
    rcases infix_append_cons hrange hblank with hrange | hrange
    · simp at hrange
    · exact ht ⟨d, e, hd, he, hrange⟩

theorem strip_text (t : TestLine) :
    stripCarriageReturn t.text = t.head ++ stripCarriageReturn t.tail :=
  stripCarriageReturn_append (t.getLast?_head (by decide))

/-- The line may end anywhere behind the number. -/
theorem readSubline_head (h : crate.Documented) (t : TestLine) {tail : List Char}
    (htail : tail <+: t.tail) :
    readSubline crate (t.head ++ tail) = .ok (some ⟨afterDash tail, t.testResult⟩) := by
  have hdigits : ∀ c ∈ Nat.toDigits 10 t.number, crate.digit c = true :=
    fun c hc => digit_of_isDigit h (isDigit_of_mem_toDigits t.number hc)
  have hhead : ∀ c ∈ tail.head?, crate.digit c = false := by
    intro c hc
    obtain ⟨l, rfl⟩ : ∃ l, tail = c :: l := List.head?_eq_some_iff.mp hc
    rw [TestLine.tail] at htail
    split at htail
    · simp at htail
    · obtain ⟨rfl, -⟩ := List.cons_prefix_cons.mp htail
      exact not_digit h (by decide) (by decide)
  have happend : t.head ++ tail =
      ' ' :: (t.testResult.word ++ ' ' :: (Nat.toDigits 10 t.number ++ tail)) := by simp [head]
  rw [happend]
  exact readSubline_result h t.testResult Nat.toDigits_ne_nil hdigits hhead
    fun hmem => t.newline_not_mem_tail (htail.subset hmem)

/-- The first piece of the line still has its outcome and its number. -/
theorem split_head (t : TestLine) {tail : List Char} (hsep : SEPARATOR <:+: t.head ++ tail) :
    ∃ tail' ps, split SEPARATOR (t.head ++ tail) = (t.head ++ tail') :: ps ∧
      tail' ++ SEPARATOR <+: tail := by
  obtain ⟨p, ps, hps, more, hmore⟩ := split_eq_cons hsep (List.cons_ne_nil _ _)
  rw [List.append_assoc] at hmore
  rcases List.append_eq_append_iff.mp hmore with ⟨l, hl, hrest⟩ | ⟨l, rfl, hrest⟩
  · cases l with
    | nil =>
      rw [List.append_nil] at hl
      exact ⟨[], ps, by rw [hps, hl, List.append_nil], more, hrest⟩
    | cons c l =>
      -- the boundary would begin in front of the number's end
      exfalso
      cases l with
      | nil =>
        obtain ⟨rfl, -⟩ := List.cons_eq_cons.mp hrest
        exact t.getLast?_head (c := ' ') (by decide) (by rw [hl, List.getLast?_concat])
      | cons c' l =>
        obtain ⟨-, hrest⟩ := List.cons_eq_cons.mp hrest
        obtain ⟨rfl, -⟩ := List.cons_eq_cons.mp hrest
        exact t.not_mem_head (c := '|') (by decide) (by decide) (by simp [hl])
  · exact ⟨l, ps, hps, more, by rw [hrest, List.append_assoc]⟩

theorem count_afterDash_le (c : Char) (l : List Char) : (afterDash l).count c ≤ l.count c := by
  rw [afterDash]
  split
  · exact (List.drop_sublist _ _).count_le c
  · exact Nat.le_refl _

/-- A name of which a character has been lost is another name. -/
theorem afterDash_ne (t : TestLine) {tail : List Char} {c : Char} (hc : c ∉ DASH)
    (hlost : tail.count c < t.tail.count c) : afterDash tail ≠ t.testName := by
  intro heq
  have hle := count_afterDash_le c tail
  rw [heq, ← t.count_tail hc] at hle
  omega

theorem getLast?_tail (t : TestLine) : t.tail.getLast? = t.testName.getLast? := by
  rw [tail]
  split
  · rw [‹t.testName = []›]
  · exact List.getLast?_append_of_ne_nil _ ‹_›

/-- A boundary makes the name one with a dash in front of it. -/
theorem infix_of_separator (t : TestLine) (h : SEPARATOR <:+: ' ' :: t.testName) :
    ' ' :: t.testName <:+: t.text := by
  have hne : t.testName ≠ [] := by
    intro hnil
    rw [hnil] at h
    exact absurd h.length_le (by decide)
  refine ⟨t.head ++ [' ', '-'], [], ?_⟩
  simp [text, tail, hne, DASH]

/-- A line whose name looks like no plan gives a result, and gives its own result only when the
name is legible. -/
theorem gives_test (h : crate.Documented) (t : TestLine) {out : List PgTapTest}
    (hrange : ¬ HasRange crate t.testName) (hgives : Gives crate (stripCarriageReturn t.text) out) :
    ∃ first more, out = first :: more ∧ (first = t.test → t.Legible crate) := by
  have hpre : stripCarriageReturn t.tail <+: t.tail := stripCarriageReturn_isPrefix _
  have hline : '\n' ∉ stripCarriageReturn t.text :=
    fun hmem => t.newline_not_mem ((stripCarriageReturn_isPrefix _).subset hmem)
  have hplan : ¬ HasRange crate (stripCarriageReturn t.text) := fun hr =>
    t.noRange_text h hrange (hr.mono (stripCarriageReturn_isPrefix _).isInfix)
  cases hgives with
  | plan found =>
    rw [(captures_planRe_eq_none_iff h hline).mpr hplan] at found
    cases found
  | results missed read =>
    rw [t.strip_text] at read
    by_cases hsep : SEPARATOR <:+: t.head ++ stripCarriageReturn t.tail
    · obtain ⟨tail, ps, hps, htail⟩ := t.split_head hsep
      have hpiece : tail ++ SEPARATOR <+: t.tail := htail.trans hpre
      rw [hps] at read
      cases read with
      | cons hread _ =>
        rw [t.readSubline_head h ((List.prefix_append _ _).trans hpiece)] at hread
        cases hread
        refine ⟨_, _, rfl, fun heq => ?_⟩
        refine absurd (congrArg PgTapTest.testName heq) (t.afterDash_ne (c := '|') (by decide) ?_)
        have hcount := hpiece.sublist.count_le '|'
        rw [List.count_append] at hcount
        exact Nat.lt_of_lt_of_le (Nat.lt_add_of_pos_right (by decide)) hcount
    · rw [split_eq_singleton hsep] at read
      cases read with
      | cons hread _ =>
        rw [t.readSubline_head h hpre] at hread
        cases hread
        refine ⟨_, _, rfl, fun heq => ?_⟩
        have hname : afterDash (stripCarriageReturn t.tail) = t.testName :=
          congrArg PgTapTest.testName heq
        have hcr : t.testName.getLast? ≠ some '\r' := by
          intro hlast
          rw [← t.getLast?_tail] at hlast
          exact t.afterDash_ne (by decide) (count_stripCarriageReturn_lt hlast) hname
        refine ⟨hrange, fun hinf => hsep ?_, hcr⟩
        rw [stripCarriageReturn_of_getLast? (t.getLast?_tail ▸ hcr)]
        exact hinf.trans (t.infix_of_separator hinf)

theorem noSeparator_text (t : TestLine) (ht : ¬ SEPARATOR <:+: ' ' :: t.testName) :
    ¬ SEPARATOR <:+: t.text := by
  intro hsep
  rcases t.infix_text hsep (by decide) with hsep | hsep
  · have hmem : '|' ∈ t.head ++ [' '] := hsep.subset (by decide)
    rw [List.mem_append] at hmem
    exact hmem.elim (t.not_mem_head (by decide) (by decide)) (by decide)
  · exact ht hsep

theorem inspectLine_test (h : crate.Documented) (t : TestLine) (ht : t.Legible crate)
    (seen : Seen) : inspectLine crate seen (stripCarriageReturn t.text) =
      .ok { seen with testResults := seen.testResults ++ [t.test] } := by
  have hline : stripCarriageReturn t.text = t.text := by
    rw [t.strip_text, stripCarriageReturn_of_getLast? (t.getLast?_tail ▸ ht.noCarriageReturn), text]
  have hplan := (captures_planRe_eq_none_iff h t.newline_not_mem).mpr (t.noRange_text h ht.noRange)
  have hread := t.readSubline_head h (List.prefix_refl t.tail)
  rw [← text, t.afterDash_tail] at hread
  rw [hline, inspectLine, hplan, split_eq_singleton (t.noSeparator_text ht.noSeparator)]
  simp only [List.foldlM_cons, List.foldlM_nil, pushSubline, hread]
  rfl

end TestLine

/-! ## The other lines -/

theorem inspectLine_aside (h : crate.Documented) (a : Aside crate) (seen : Seen) :
    inspectLine crate seen (stripCarriageReturn a.text) = .ok seen := by
  have hinf := (stripCarriageReturn_isPrefix a.text).isInfix
  have hline : '\n' ∉ stripCarriageReturn a.text := fun hmem => a.oneLine (hinf.subset hmem)
  have hplan := (captures_planRe_eq_none_iff h hline).mpr fun hr => a.noRange (hr.mono hinf)
  rw [inspectLine, hplan]
  have hpieces : ∀ s ∈ split SEPARATOR (stripCarriageReturn a.text), ¬ HasResult crate s :=
    fun s hs hr => a.noResult (hr.mono ((infix_of_mem_split hs).trans hinf))
  simp only [pushSublines_of_noResult h hpieces]
  rfl

theorem captures_planLine (h : crate.Documented) (planned : Nat) :
    ∃ captures, crate.captures (planRe crate) (stripCarriageReturn (planLine planned)) =
      some captures ∧ captures .nesting = none ∧
      captures .end = some (Nat.toDigits 10 planned) := by
  have hne : Nat.toDigits 10 planned ≠ [] := Nat.toDigits_ne_nil
  have hdigits : ∀ c ∈ Nat.toDigits 10 planned, crate.digit c = true :=
    fun c hc => digit_of_isDigit h (isDigit_of_mem_toDigits planned hc)
  have hstrip : stripCarriageReturn (planLine planned) = planLine planned := by
    refine stripCarriageReturn_of_getLast? fun hlast => ?_
    have happend : planLine planned = [' ', '1', '.', '.'] ++ Nat.toDigits 10 planned := rfl
    rw [happend, List.getLast?_append_of_ne_nil _ hne] at hlast
    exact absurd (isDigit_of_mem_toDigits planned (List.mem_of_getLast? hlast)) (by decide)
  rw [hstrip, h.leftmost_first _ _ rfl, planLine, search_plan h hne hdigits]
  exact ⟨_, rfl, rfl, rfl⟩

theorem inspectLine_plan (h : crate.Documented) (planned : Nat) (seen : Seen) :
    inspectLine crate seen (stripCarriageReturn (planLine planned)) =
      if planned < USIZE_BOUND then .ok { seen with plannedTestCount := some planned }
      else .error (.unwrapErr .posOverflow) := by
  obtain ⟨captures, hcaptures, hnesting, hend⟩ := captures_planLine h planned
  rw [inspectLine, hcaptures]
  simp only [nestingLevel, hnesting, hend, unwrap, Option.map_none, Option.getD_none,
    Nat.lt_irrefl, gt_iff_lt, if_false]
  change (parseUsize (Nat.toDigits 10 planned)).mapError Panic.unwrapErr >>= _ = _
  rw [parseUsize_toDigits]
  by_cases hn : planned < USIZE_BOUND
  · rw [if_pos hn, if_pos hn]
    rfl
  · rw [if_neg hn, if_neg hn]
    rfl

/-! ## The whole report -/

namespace ReportLine

def tests (line : ReportLine crate) : List PgTapTest := line.testLines.map (·.test)

/-- The line as the parser gets it. -/
def stripped (line : ReportLine crate) : List Char := stripCarriageReturn line.text

theorem newline_not_mem (line : ReportLine crate) : '\n' ∉ line.text := by
  cases line with
  | test t => exact t.newline_not_mem
  | aside a => exact a.oneLine

theorem newline_not_mem_stripped (line : ReportLine crate) : '\n' ∉ line.stripped :=
  fun hmem => line.newline_not_mem ((stripCarriageReturn_isPrefix _).subset hmem)

end ReportLine

theorem inspectLines_legible (h : crate.Documented) (ls : List (ReportLine crate))
    (hls : ∀ t ∈ ls.flatMap (·.testLines), t.Legible crate) (seen : Seen) :
    (ls.map (·.stripped)).foldlM (inspectLine crate) seen =
      .ok { seen with testResults := seen.testResults ++ ls.flatMap (·.tests) } := by
  induction ls generalizing seen with
  | nil => simp; rfl
  | cons line ls ih =>
    rw [List.flatMap_cons, List.forall_mem_append] at hls
    have hline : inspectLine crate seen line.stripped =
        .ok { seen with testResults := seen.testResults ++ line.tests } := by
      cases line with
      | test t => exact t.inspectLine_test h (hls.1 t List.mem_cons_self) seen
      | aside a =>
        refine (inspectLine_aside h a seen).trans ?_
        simp [ReportLine.tests, ReportLine.testLines]
    rw [List.map_cons, List.foldlM_cons, hline]
    refine (ih hls.2 _).trans ?_
    simp

theorem lines_text (report : Report crate) :
    lines report.text = report.before.map (·.stripped) ++
      stripCarriageReturn (planLine report.planned) :: report.after.map (·.stripped) := by
  have hplan : '\n' ∉ planLine report.planned := by
    have hdigits : '\n' ∉ Nat.toDigits 10 report.planned :=
      fun hmem => absurd (isDigit_of_mem_toDigits report.planned hmem) (by decide)
    simpa [planLine] using hdigits
  rw [Report.text, lines_flatMap_endLine]
  · rw [Report.lines, List.map_append, List.map_cons, List.map_map, List.map_map]
    rfl
  · intro l hl
    rcases List.mem_append.mp hl with hl | hl
    · obtain ⟨line, -, rfl⟩ := List.mem_map.mp hl
      exact line.newline_not_mem
    · rcases List.mem_cons.mp hl with rfl | hl
      · exact hplan
      · obtain ⟨line, -, rfl⟩ := List.mem_map.mp hl
        exact line.newline_not_mem

theorem tests_eq_flatMap (report : Report crate) :
    report.tests = (report.before ++ report.after).flatMap (·.tests) := by
  rw [Report.tests, Report.testLines, List.map_flatMap]
  rfl

/-- What is read of the results, line by line, when the parser returns. -/
theorem gives_of_parsePgtapResult (h : crate.Documented) (report : Report crate)
    {result : PgTapResult}
    (hresult : parsePgtapResult crate report.text = .ok (some result)) :
    report.planned < USIZE_BOUND ∧
    ∃ outs, List.Forall₂ (fun line out => Gives crate line.stripped out)
      (report.before ++ report.after) outs ∧ result.testResults = outs.flatten := by
  rw [parsePgtapResult, lines_text, List.foldlM_append] at hresult
  obtain ⟨seen, hseen, hresult⟩ := bind_eq_ok hresult
  obtain ⟨seen₁, hbefore, hseen⟩ := bind_eq_ok hseen
  rw [List.foldlM_cons] at hseen
  obtain ⟨seen₂, hplan, hafter⟩ := bind_eq_ok hseen
  rw [inspectLine_plan h] at hplan
  obtain ⟨hlt, rfl⟩ := of_check_ok hplan
  obtain ⟨planned, -, rfl⟩ := Option.map_eq_some_iff.mp (Except.ok.inj hresult)
  obtain ⟨outs₁, houts₁, heq₁⟩ := inspectLines_effects hbefore
  obtain ⟨outs₂, houts₂, heq₂⟩ := inspectLines_effects hafter
  rw [List.forall₂_map_left_iff] at houts₁ houts₂
  refine ⟨hlt, outs₁ ++ outs₂, List.rel_append houts₁ houts₂, ?_⟩
  rw [Seen.result, heq₂, heq₁, List.nil_append, List.flatten_append]

theorem parsePgtapResult_of_legible (h : crate.Documented) (report : Report crate)
    (hplanned : report.planned < USIZE_BOUND)
    (hlegible : ∀ t ∈ report.testLines, t.Legible crate) :
    parsePgtapResult crate report.text =
      .ok (some (Seen.result ⟨some report.planned, report.tests⟩ report.planned)) := by
  rw [Report.testLines, List.flatMap_append, List.forall_mem_append] at hlegible
  have hbefore := inspectLines_legible h report.before hlegible.1 ⟨none, []⟩
  have hafter := inspectLines_legible h report.after hlegible.2
    ⟨some report.planned, report.before.flatMap (·.tests)⟩
  have hplan := inspectLine_plan h report.planned ⟨none, report.before.flatMap (·.tests)⟩
  rw [if_pos hplanned] at hplan
  rw [parsePgtapResult, lines_text, List.foldlM_append, hbefore, tests_eq_flatMap,
    List.flatMap_append]
  change (List.foldlM _ _ (_ :: _)) >>= _ = _
  rw [List.foldlM_cons, List.nil_append, hplan]
  change (List.foldlM _ _ _) >>= _ = _
  rw [hafter]
  rfl

/-- The plan and the results of a report are read back exactly when the plan fits its type and
every name is legible. -/
theorem parsePgtapResult_reads_iff (h : crate.Documented) (report : Report crate) :
    (∃ result, parsePgtapResult crate report.text = .ok (some result) ∧
      result.plannedTestCount = report.planned ∧ result.testResults = report.tests) ↔
    report.planned < USIZE_BOUND ∧ ∀ t ∈ report.testLines, t.Legible crate := by
  constructor
  · rintro ⟨result, hresult, -, htests⟩
    obtain ⟨hplanned, outs, houts, heq⟩ := gives_of_parsePgtapResult h report hresult
    rw [htests] at heq
    have hnames : ∀ t ∈ report.testLines, ¬ HasRange crate t.testName := by
      intro t ht
      have hmem : t.test ∈ report.tests := List.mem_map_of_mem ht
      rw [heq] at hmem
      obtain ⟨out, hout, hmem⟩ := List.mem_flatten.mp hmem
      obtain ⟨line, -, hgives⟩ := exists_left houts hout
      exact hgives.noRange h line.newline_not_mem_stripped t.test hmem
    have hle : ∀ line ∈ report.before ++ report.after, ∀ out,
        Gives crate line.stripped out → line.tests.length ≤ out.length := by
      intro line hline out hgives
      cases line with
      | test t =>
        have ht : t ∈ report.testLines :=
          List.mem_flatMap.mpr ⟨.test t, hline, List.mem_singleton_self t⟩
        obtain ⟨first, more, rfl, -⟩ := t.gives_test h (hnames t ht) hgives
        simp [ReportLine.tests, ReportLine.testLines]
      | aside a => simp [ReportLine.tests, ReportLine.testLines]
    rw [tests_eq_flatMap] at heq
    have hgives := forall_of_flatten_eq houts hle heq.symm
    refine ⟨hplanned, fun t ht => ?_⟩
    obtain ⟨line, hline, hmem⟩ := List.mem_flatMap.mp ht
    cases line with
    | test t' =>
      obtain rfl : t = t' := List.mem_singleton.mp hmem
      obtain ⟨first, more, hfirst, hlegible⟩ := t.gives_test h (hnames t ht) (hgives _ hline)
      exact hlegible (List.cons_eq_cons.mp hfirst).1.symm
    | aside a => exact absurd hmem List.not_mem_nil
  · rintro ⟨hplanned, hlegible⟩
    exact ⟨_, parsePgtapResult_of_legible h report hplanned hlegible, rfl, rfl⟩

/-- An engine that knows the classes of ASCII only. -/
def asciiCrate : RegexCrate where
  digit := Char.isDigit
  space c := decide (c ∈ [' ', '\t', '\n', '\x0b', '\x0c', '\r'])
  captures r text := (r.search text).map fun t => t.name

theorem asciiCrate_documented : asciiCrate.Documented where
  digit_ascii _ _ := rfl
  space_ascii _ _ := decide_eq_true_iff
  leftmost_first _ _ _ := rfl

/-- ` plan`, ` 1..2`, ` ok 1 - a` and ` not ok 2` -/
def shortReport : Report asciiCrate where
  planned := 2
  before := [.aside {
    text := [' ', 'p', 'l', 'a', 'n']
    oneLine := by decide
    noRange := fun ⟨_, _, _, _, h⟩ => absurd (h.subset (a := '.') (by simp)) (by decide)
    noResult := fun ⟨_, _, h⟩ => absurd (h.subset (a := 'k') (by simp)) (by decide) }]
  after := [.test ⟨.pass, 1, ['a'], by decide⟩, .test ⟨.fail, 2, [], by decide⟩]

theorem parsePgtapResult_reads_shortReport :
    ∃ result, parsePgtapResult asciiCrate shortReport.text = .ok (some result) ∧
      result.plannedTestCount = 2 ∧ result.testResults = [⟨['a'], .pass⟩, ⟨[], .fail⟩] := by
  refine (parsePgtapResult_reads_iff asciiCrate_documented shortReport).mpr ⟨by decide, ?_⟩
  have hlegible : ∀ t : TestLine, t.testName.length ≤ 1 →
      (¬ SEPARATOR <:+: ' ' :: t.testName) → t.testName.getLast? ≠ some '\r' →
      t.Legible asciiCrate := by
    intro t hlength hsep hlast
    refine ⟨?_, hsep, hlast⟩
    rintro ⟨_, _, -, -, hrange⟩
    have hle := hrange.length_le
    simp only [List.length_cons, List.length_nil] at hle
    omega
  intro t ht
  rcases List.mem_cons.mp ht with rfl | ht
  · exact hlegible _ (by decide) (by decide) (by decide)
  · obtain rfl := List.mem_singleton.mp ht
    exact hlegible _ (by decide) (by decide) (by decide)

/-- ` 1..2`, ` ok 1 - a` and ` not ok 2 - range 1..1` -/
def lostFailure : Report asciiCrate where
  planned := 2
  before := []
  after := [.test ⟨.pass, 1, ['a'], by decide⟩,
    .test ⟨.fail, 2, ['r', 'a', 'n', 'g', 'e', ' ', '1', '.', '.', '1'], by decide⟩]

/-- The failed test is taken for a plan of the one test that has passed. -/
theorem parsePgtapResult_loses_failure :
    parsePgtapResult asciiCrate lostFailure.text = .ok (some ⟨1, 1, 1, [⟨['a'], .pass⟩]⟩) ∧
    ¬ ∃ result, parsePgtapResult asciiCrate lostFailure.text = .ok (some result) ∧
      result.plannedTestCount = lostFailure.planned ∧
      result.testResults = lostFailure.tests := by
  have hparse : parsePgtapResult asciiCrate lostFailure.text =
      .ok (some ⟨1, 1, 1, [⟨['a'], .pass⟩]⟩) := rfl
  refine ⟨hparse, ?_⟩
  rintro ⟨result, hresult, hplanned, -⟩
  rw [hparse] at hresult
  cases hresult
  exact absurd hplanned (by decide)

end Promscale.PgTap
