import Promscale.Jsonb.Output
import Promscale.Lib.CharClasses
import Promscale.Tracing.TagMaps

/-!
# The jsonb values of a text

`_ps_trace.text_matches` and `_ps_trace.tag_v_text_eq_matching_tags`: the values that print as
a text, and the tags that have them.
-/
namespace Promscale.Tracing

open Promscale.Lib
open Promscale.Lib.CharClasses
open Promscale.Jsonb

/-- The hash of the digests. -/
class Sha512 where
  sha512 : List UInt8 → List UInt8

instance [Sha512] : JsonbFunctions Numeric where
  numericNormalize := numericNormalize
  sha512 := Sha512.sha512
  out := Value.text

/-- `[0-9]` -/
def digitClass : RegularExpression UInt8 := oneOf ((List.range 10).map Decimal.digit)

/-- `[-+]?` -/
def signClass : RegularExpression UInt8 := zeroOrOne (oneOf [minus, plus])

/-- `^[-+]?[0-9]*\.?[0-9]+([eE][-+]?[0-9]+)?$` -/
def floatingPoint : RegularExpression UInt8 :=
  signClass * (digitClass.star * (zeroOrOne (oneOf [point]) * (oneOrMore digitClass *
    zeroOrOne (oneOf [0x65, 0x45] * (signClass * oneOrMore digitClass)))))

/-- `to_jsonb` of a text, with its check of the length. -/
def textToJsonb (s : PgText) : Except PgError (Value Numeric) :=
  if s.bytes.length ≤ 0x0FFFFFFF then .ok (.scalar (.string s))
  else .error ⟨"string too long to represent as jsonb string", "54000"⟩

def textMatches (value : PgText) : Except PgError (List (Value Numeric)) := do
  let string ← textToJsonb value
  if value.bytes = trueOut ∨ value.bytes = falseOut then
    pure [string, .scalar (.bool (value.bytes = trueOut))]
  else if floatingPoint.rmatch value.bytes then do
    let n ← numericIn value
    pure [string, .scalar (.numeric n)]
  else pure [string]

/-- The ids of the keys and of the values, a pair for each tag that a value finds. -/
def State.tagVTextEqMatchingTags [Sha512] (s : State Numeric) (tagKey tagValueText : PgText) :
    Except PgError (List (Nat × Nat)) := do
  let matchers ← textMatches tagValueText
  pure (matchers.filterMap fun v => (s.tag.find? (·.isFor (tagKey, v))).map fun a =>
    (a.keyId, a.id))

/-! ## Numerals -/

theorem isDigit_iff_mem {b : UInt8} :
    b ∈ (List.range 10).map Decimal.digit ↔ Decimal.isDigit b = true := by
  revert b
  apply Decimal.octet_forall
  decide +kernel

theorem star_digitClass_rmatch {x : List UInt8} :
    digitClass.star.rmatch x = true ↔ ∀ b ∈ x, Decimal.isDigit b = true := by
  simp only [digitClass, star_oneOf_rmatch, isDigit_iff_mem]

theorem oneOrMore_digitClass_rmatch {x : List UInt8} :
    (oneOrMore digitClass).rmatch x = true ↔ x ≠ [] ∧ ∀ b ∈ x, Decimal.isDigit b = true := by
  simp only [digitClass, oneOrMore_oneOf_rmatch, isDigit_iff_mem]

theorem signClass_rmatch {x : List UInt8} :
    signClass.rmatch x = true ↔ x = [] ∨ x = [minus] ∨ x = [plus] := by
  rw [signClass, zeroOrOne_rmatch, oneOf_rmatch]
  simp

/-- What the pattern says: a sign, digits, a point, digits, and an exponent with a sign and
digits, of which the second digits have to be there. -/
theorem floatingPoint_rmatch {x : List UInt8} : floatingPoint.rmatch x = true ↔
    ∃ sign int dot frac exp, x = sign ++ (int ++ (dot ++ (frac ++ exp))) ∧
      (sign = [] ∨ sign = [minus] ∨ sign = [plus]) ∧
      (∀ b ∈ int, Decimal.isDigit b = true) ∧ (dot = [] ∨ dot = [point]) ∧
      (frac ≠ [] ∧ ∀ b ∈ frac, Decimal.isDigit b = true) ∧
      (exp = [] ∨ ∃ e expSign ds, exp = e :: (expSign ++ ds) ∧ (e = 0x65 ∨ e = 0x45) ∧
        (expSign = [] ∨ expSign = [minus] ∨ expSign = [plus]) ∧
        ds ≠ [] ∧ ∀ b ∈ ds, Decimal.isDigit b = true) := by
  unfold floatingPoint
  simp only [RegularExpression.mul_rmatch_iff, signClass_rmatch, star_digitClass_rmatch,
    oneOrMore_digitClass_rmatch, zeroOrOne_rmatch, oneOf_rmatch]
  constructor
  · rintro ⟨sign, _, rfl, hsign, int, _, rfl, hint, dot, _, rfl, hdot, frac, exp, rfl, hfrac, hexp⟩
    refine ⟨sign, int, dot, frac, exp, rfl, hsign, hint, by simpa using hdot, hfrac, ?_⟩
    rcases hexp with rfl | ⟨e, _, rfl, ⟨c, hc, rfl⟩, expSign, ds, rfl, hexpSign, hds⟩
    · exact .inl rfl
    · exact .inr ⟨c, expSign, ds, rfl, by simpa using hc, hexpSign, hds⟩
  · rintro ⟨sign, int, dot, frac, exp, rfl, hsign, hint, hdot, hfrac, hexp⟩
    refine ⟨sign, _, rfl, hsign, int, _, rfl, hint, dot, _, rfl, by simpa using hdot, frac, exp,
      rfl, hfrac, ?_⟩
    rcases hexp with rfl | ⟨e, expSign, ds, rfl, he, hexpSign, hds⟩
    · exact .inl rfl
    · exact .inr ⟨[e], _, rfl, ⟨e, by simpa using he, rfl⟩, expSign, ds, rfl, hexpSign, hds⟩

/-- What is printed for a numeric matches. -/
theorem floatingPoint_numericOut (n : Numeric) :
    floatingPoint.rmatch (numericOut n) = true := by
  rw [floatingPoint_rmatch]
  have hint : ∀ b ∈ n.intDigits, Decimal.isDigit b = true :=
    fun b hb => n.isDigit_of_mem_intDigits hb
  have hsign : (if n.coefficient < 0 then [minus] else []) = [] ∨
      (if n.coefficient < 0 then [minus] else []) = [minus] ∨
      (if n.coefficient < 0 then [minus] else []) = [plus] := by
    split <;> simp
  by_cases hdscale : n.dscale = 0
  · refine ⟨_, [], [], n.intDigits, [], ?_, hsign, by simp, .inl rfl,
      ⟨n.intDigits_ne_nil, hint⟩, .inl rfl⟩
    simp [numericOut, hdscale]
  · have hfrac : n.fracDigits ≠ [] := by
      intro hnil
      have hlength := n.length_fracDigits
      rw [hnil] at hlength
      exact hdscale hlength.symm
    refine ⟨_, n.intDigits, [point], n.fracDigits, [], ?_, hsign, hint, .inr rfl,
      ⟨hfrac, fun b hb => n.isDigit_of_mem_fracDigits hb⟩, .inl rfl⟩
    simp [numericOut, hdscale]

/-! ## Values and their texts -/

/-- The values that Postgres stores: the members of an object in the order of their keys. -/
abbrev IsStored (v : Value Numeric) : Prop := v.Canonical PgText.lengthThenBytes

/-- Arrays and objects. -/
def IsContainer : Value Numeric → Prop
  | .scalar _ => False
  | .array _ => True
  | .object _ => True

/-- An array or an object prints so. -/
def IsContainerText (s : PgText) : Prop := ∃ v, IsStored v ∧ IsContainer v ∧ v.text = s

def IsBoolText (s : PgText) : Prop := s.bytes = trueOut ∨ s.bytes = falseOut

instance (s : PgText) : Decidable (IsBoolText s) := inferInstanceAs (Decidable (_ ∨ _))

def IsNumeral (s : PgText) : Prop := floatingPoint.rmatch s.bytes = true

instance (s : PgText) : Decidable (IsNumeral s) := inferInstanceAs (Decidable (_ = true))

theorem isNumeral_text (n : Numeric) : IsNumeral n.text :=
  floatingPoint_numericOut n

theorem not_isNumeral_of_isBoolText {s : PgText} (h : IsBoolText s) : ¬ IsNumeral s := by
  unfold IsNumeral
  rcases h with h | h
  · rw [h]
    decide +kernel
  · rw [h]
    decide +kernel

section Branches
variable {s : PgText}

theorem textMatches_bool (hlength : s.bytes.length ≤ 0x0FFFFFFF) (h : IsBoolText s) :
    textMatches s = .ok [toJsonb s, .scalar (.bool (s.bytes = trueOut))] := by
  unfold textMatches textToJsonb
  rw [if_pos hlength]
  exact if_pos h

theorem textMatches_numeral (hlength : s.bytes.length ≤ 0x0FFFFFFF) (hbool : ¬ IsBoolText s)
    (h : IsNumeral s) :
    textMatches s = (numericIn s).map fun n => [toJsonb s, .scalar (.numeric n)] := by
  unfold textMatches textToJsonb
  rw [if_pos hlength]
  change (if IsBoolText s then _ else if IsNumeral s then _ else _) = _
  rw [if_neg hbool, if_pos h]
  rfl

theorem textMatches_other (hlength : s.bytes.length ≤ 0x0FFFFFFF) (hbool : ¬ IsBoolText s)
    (h : ¬ IsNumeral s) : textMatches s = .ok [toJsonb s] := by
  unfold textMatches textToJsonb
  rw [if_pos hlength]
  change (if IsBoolText s then _ else if IsNumeral s then _ else _) = _
  rw [if_neg hbool, if_neg h]
  rfl

theorem textMatches_scalars (hlength : s.bytes.length ≤ 0x0FFFFFFF) {found : List (Value Numeric)}
    (hfound : textMatches s = .ok found) : ∀ e ∈ found, ∃ x, e = .scalar x := by
  by_cases hbool : IsBoolText s
  · rw [textMatches_bool hlength hbool] at hfound
    cases hfound
    simp [toJsonb]
  · by_cases hnumeral : IsNumeral s
    · rw [textMatches_numeral hlength hbool hnumeral] at hfound
      cases hin : numericIn s with
      | error e =>
        rw [hin] at hfound
        cases hfound
      | ok n =>
        rw [hin] at hfound
        cases hfound
        simp [toJsonb]
    · rw [textMatches_other hlength hbool hnumeral] at hfound
      cases hfound
      simp [toJsonb]

theorem isBoolText_of_out {b : Bool} (h : (Scalar.bool b).out = s.bytes) : IsBoolText s := by
  cases b with
  | true => exact .inl h.symm
  | false => exact .inr h.symm

end Branches

section
variable [Sha512]

theorem asText_numeric {n : Numeric} {s : PgText} :
    asText (.scalar (.numeric n)) = some s ↔ n.text = s := by
  simp [asText, JsonbFunctions.out, Value.text, Numeric.text, PgText.ext_iff, Value.out, Scalar.out]

/-- A value prints as a text: as that string, as a boolean, as a numeric, or as a container. -/
theorem asText_iff {v : Value Numeric} {s : PgText} : asText v = some s ↔
    v = toJsonb s ∨ (∃ b, v = .scalar (.bool b) ∧ (Scalar.bool b).out = s.bytes) ∨
      (∃ n : Numeric, v = .scalar (.numeric n) ∧ n.text = s) ∨ IsContainer v ∧ v.text = s := by
  cases v with
  | scalar x =>
    cases x with
    | null => simp [asText, toJsonb, IsContainer]
    | bool b => simp [asText, toJsonb, IsContainer, JsonbFunctions.out, Value.text, PgText.ext_iff,
        Value.out]
    | string t => simp [asText, toJsonb, IsContainer]
    | numeric n => simp [asText_numeric, toJsonb, IsContainer]
  | array xs => simp [asText, toJsonb, IsContainer, JsonbFunctions.out]
  | object ms => simp [asText, toJsonb, IsContainer, JsonbFunctions.out]

/-- Only an equal scalar is equal to a scalar. -/
theorem jsonbEq_scalar {v : Value Numeric} {x : Scalar Numeric} :
    jsonbEq v (.scalar x) = true ↔ ∃ y, v = .scalar y ∧ y.Equal Numeric.Equal x := by
  have hnormalize : ∀ m n : Numeric, JsonbFunctions.numericNormalize m =
      JsonbFunctions.numericNormalize n ↔ m.Equal n := fun _ _ => numericNormalize_eq_iff
  rw [jsonbEq_iff]
  cases v with
  | scalar y =>
    rw [Value.preorder, Value.preorder, List.singleton_inj, Scalar.token_eq_iff hnormalize]
    simp
  | array xs => cases x <;> simp [Value.preorder, Scalar.token]
  | object ms => cases x <;> simp [Value.preorder, Scalar.token]

theorem jsonbEq_string {v : Value Numeric} {s : PgText} :
    jsonbEq v (.scalar (.string s)) = true ↔ v = toJsonb s := by
  rw [jsonbEq_scalar]
  constructor
  · rintro ⟨y, rfl, hequal⟩
    cases y <;> simp_all [Scalar.Equal, toJsonb]
  · rintro rfl
    exact ⟨_, rfl, rfl⟩

theorem jsonbEq_bool {v : Value Numeric} {b : Bool} :
    jsonbEq v (.scalar (.bool b)) = true ↔ v = .scalar (.bool b) := by
  rw [jsonbEq_scalar]
  constructor
  · rintro ⟨y, rfl, hequal⟩
    cases y <;> simp_all [Scalar.Equal]
  · rintro rfl
    exact ⟨_, rfl, rfl⟩

theorem jsonbEq_numeric {v : Value Numeric} {n : Numeric} :
    jsonbEq v (.scalar (.numeric n)) = true ↔
      ∃ m : Numeric, v = .scalar (.numeric m) ∧ m.Equal n := by
  rw [jsonbEq_scalar]
  constructor
  · rintro ⟨y, rfl, hequal⟩
    cases y <;> simp_all [Scalar.Equal]
  · rintro ⟨m, rfl, hequal⟩
    exact ⟨_, rfl, hequal⟩

/-! ## What the matches are -/

/-- A value prints as the text exactly if it is equal to one of the matches. -/
def Inverts (value : PgText) (found : List (Value Numeric)) : Prop :=
  ∀ v, IsStored v → (asText v = some value ↔ ∃ e ∈ found, jsonbEq v e = true)

/-- The tags found under a key are those whose value prints as the text. -/
def FindsTags (value : PgText) : Prop :=
  ∀ (s : State Numeric) (tagKey : PgText), (∀ t ∈ s.tag.table.rows, IsStored t.value) →
    ∃ found, s.tagVTextEqMatchingTags tagKey value = .ok found ∧ ∀ f, f ∈ found ↔
      ∃ t ∈ s.tag.table.rows, t.key.text = tagKey ∧ asText t.value = some value ∧
        f = (t.keyId, t.id)

/-- `text_matches` returns, it inverts the text, and so the right tags are found. -/
def InvertsText (value : PgText) : Prop :=
  (∃ found, textMatches value = .ok found ∧ Inverts value found) ∧ FindsTags value

theorem findsTags_of_inverts {value : PgText} {matchers : List (Value Numeric)}
    (hmatches : textMatches value = .ok matchers) (h : Inverts value matchers) :
    FindsTags value := by
  intro s tagKey hstored
  have hrun : s.tagVTextEqMatchingTags tagKey value = .ok (matchers.filterMap fun v =>
      (s.tag.find? (·.isFor (tagKey, v))).map fun a => (a.keyId, a.id)) := by
    rw [State.tagVTextEqMatchingTags, hmatches]
    rfl
  refine ⟨_, hrun, fun f => ?_⟩
  simp only [List.mem_filterMap, Option.map_eq_some_iff]
  constructor
  · rintro ⟨e, he, a, hfind, rfl⟩
    have ha := List.mem_of_find?_eq_some hfind
    obtain ⟨hkey, hvalue⟩ := Tag.isFor_iff.mp (List.find?_some hfind)
    exact ⟨a, ha, hkey, (h _ (hstored a ha)).mpr ⟨e, he, hvalue⟩, rfl⟩
  · rintro ⟨t, ht, hkey, htext, rfl⟩
    obtain ⟨e, he, hvalue⟩ := (h _ (hstored t ht)).mp htext
    have hfor : t.isFor (tagKey, e) = true := Tag.isFor_iff.mpr ⟨hkey, hvalue⟩
    obtain ⟨a, hfind⟩ := Option.isSome_iff_exists.mp (List.find?_isSome.mpr ⟨t, ht, hfor⟩)
    have ha := State.tag_eq_of_isFor (List.mem_of_find?_eq_some hfind) ht
      (List.find?_some hfind) hfor
    exact ⟨e, he, a, hfind, by rw [ha]⟩

theorem asText_iff_scalar {s : PgText} (hcontainer : ¬ IsContainerText s) {v : Value Numeric}
    (hv : IsStored v) : asText v = some s ↔
      v = toJsonb s ∨ (∃ b, v = .scalar (.bool b) ∧ (Scalar.bool b).out = s.bytes) ∨
        ∃ n : Numeric, v = .scalar (.numeric n) ∧ n.text = s := by
  rw [asText_iff]
  constructor
  · rintro (hstring | hbool | hnumeric | ⟨hcontains, htext⟩)
    · exact .inl hstring
    · exact .inr (.inl hbool)
    · exact .inr (.inr hnumeric)
    · exact absurd ⟨v, hv, hcontains, htext⟩ hcontainer
  · rintro (hstring | hbool | hnumeric)
    · exact .inl hstring
    · exact .inr (.inl hbool)
    · exact .inr (.inr (.inl hnumeric))

theorem inverts_bool {s : PgText} (hcontainer : ¬ IsContainerText s) (h : IsBoolText s) :
    Inverts s [toJsonb s, .scalar (.bool (s.bytes = trueOut))] := by
  intro v hv
  rw [asText_iff_scalar hcontainer hv]
  simp only [List.mem_cons, List.not_mem_nil, or_false, exists_eq_or_imp, exists_eq_left]
  rw [jsonbEq_bool, toJsonb, jsonbEq_string, toJsonb]
  constructor
  · rintro (hstring | ⟨b, rfl, hb⟩ | ⟨n, -, hn⟩)
    · exact .inl hstring
    · refine .inr ?_
      rw [← hb]
      cases b <;> rfl
    · exact absurd (hn ▸ isNumeral_text n) (not_isNumeral_of_isBoolText h)
  · rintro (hstring | rfl)
    · exact .inl hstring
    · refine .inr (.inl ⟨_, rfl, ?_⟩)
      rcases h with h | h <;> rw [h] <;> rfl

theorem inverts_numeral {s : PgText} (hcontainer : ¬ IsContainerText s) (h : IsNumeral s)
    {n : Numeric} (hlone : n.IsLone) (htext : n.text = s) :
    Inverts s [toJsonb s, .scalar (.numeric n)] := by
  intro v hv
  rw [asText_iff_scalar hcontainer hv]
  simp only [List.mem_cons, List.not_mem_nil, or_false, exists_eq_or_imp, exists_eq_left]
  rw [jsonbEq_numeric, toJsonb, jsonbEq_string, toJsonb]
  constructor
  · rintro (hstring | ⟨b, -, hb⟩ | ⟨m, rfl, hm⟩)
    · exact .inl hstring
    · exact absurd h (not_isNumeral_of_isBoolText (isBoolText_of_out hb))
    · rw [← htext] at hm
      rw [Numeric.text_injective hm]
      exact .inr ⟨n, rfl, rfl⟩
  · rintro (hstring | ⟨m, rfl, hequal⟩)
    · exact .inl hstring
    · rw [Numeric.isLone_iff.mp hlone m hequal]
      exact .inr (.inr ⟨n, rfl, htext⟩)

theorem inverts_other {s : PgText} (hcontainer : ¬ IsContainerText s) (hbool : ¬ IsBoolText s)
    (h : ¬ IsNumeral s) : Inverts s [toJsonb s] := by
  intro v hv
  rw [asText_iff_scalar hcontainer hv]
  simp only [List.mem_cons, List.not_mem_nil, or_false, exists_eq_left]
  rw [toJsonb, jsonbEq_string, toJsonb]
  constructor
  · rintro (hstring | ⟨b, -, hb⟩ | ⟨n, -, hn⟩)
    · exact hstring
    · exact absurd (isBoolText_of_out hb) hbool
    · exact absurd (hn ▸ isNumeral_text n) h
  · exact .inl

/-- Exactly for which texts `text_matches` is the inverse of `->>`. -/
theorem textMatches_inverts_iff (value : PgText) : InvertsText value ↔
    value.bytes.length ≤ 0x0FFFFFFF ∧ ¬ IsContainerText value ∧
      (IsNumeral value → ∃ n : Numeric, n.IsLone ∧ n.text = value) := by
  constructor
  · rintro ⟨⟨found, hfound, hinverts⟩, -⟩
    have hlength : value.bytes.length ≤ 0x0FFFFFFF := by
      by_contra hlong
      unfold textMatches textToJsonb at hfound
      rw [if_neg hlong] at hfound
      cases hfound
    refine ⟨hlength, ?_, fun hnumeral => ?_⟩
    · rintro ⟨v, hv, hcontains, htext⟩
      obtain ⟨e, he, hequal⟩ := (hinverts v hv).mp
        (asText_iff.mpr (.inr (.inr (.inr ⟨hcontains, htext⟩))))
      obtain ⟨x, rfl⟩ := textMatches_scalars hlength hfound e he
      obtain ⟨y, rfl, -⟩ := jsonbEq_scalar.mp hequal
      exact hcontains
    · have hbool : ¬ IsBoolText value := fun h => not_isNumeral_of_isBoolText h hnumeral
      rw [textMatches_numeral hlength hbool hnumeral] at hfound
      cases hin : numericIn value with
      | error e =>
        rw [hin] at hfound
        cases hfound
      | ok n =>
        rw [hin] at hfound
        cases hfound
        have hprints : ∀ m : Numeric, m.Equal n → m.text = value := by
          intro m hequal
          apply asText_numeric.mp
          apply (hinverts (.scalar (.numeric m)) trivial).mpr
          exact ⟨_, List.mem_cons_of_mem _ List.mem_cons_self,
            jsonbEq_numeric.mpr ⟨m, rfl, hequal⟩⟩
        refine ⟨n, Numeric.isLone_iff.mpr fun m hequal => ?_, hprints n rfl⟩
        exact Numeric.text_injective ((hprints m hequal).trans (hprints n rfl).symm)
  · rintro ⟨hlength, hcontainer, hlone⟩
    have hfound : ∃ found, textMatches value = .ok found ∧ Inverts value found := by
      by_cases hbool : IsBoolText value
      · exact ⟨_, textMatches_bool hlength hbool, inverts_bool hcontainer hbool⟩
      · by_cases hnumeral : IsNumeral value
        · obtain ⟨n, hn, htext⟩ := hlone hnumeral
          refine ⟨_, ?_, inverts_numeral hcontainer hnumeral hn htext⟩
          rw [textMatches_numeral hlength hbool hnumeral, ← htext, numericIn_text]
          rfl
        · exact ⟨_, textMatches_other hlength hbool hnumeral,
            inverts_other hcontainer hbool hnumeral⟩
    refine ⟨hfound, ?_⟩
    obtain ⟨found, hmatches, hinverts⟩ := hfound
    exact findsTags_of_inverts hmatches hinverts

end

/-! ## A trailing zero -/

theorem lt_of_lt_thousand {n : Int} (h : n.natAbs < 10 ^ 3) (dscale : Nat) :
    n.natAbs < 10 ^ (131072 + dscale) :=
  Nat.lt_of_lt_of_le h (Nat.pow_le_pow_right (by decide) (by omega))

/-- `10` -/
def ten : Numeric := ⟨10, 0, by decide, lt_of_lt_thousand (by decide) 0⟩

/-- `10.0` -/
def tenPointZero : Numeric := ⟨100, 1, by decide, lt_of_lt_thousand (by decide) 1⟩

/-- A hash without collisions. -/
@[reducible] def identityHash : Sha512 := ⟨id⟩

/-- The text `10` finds the number that prints as `10.0`. -/
theorem textMatches_ten : letI := identityHash
    ∃ found, textMatches ten.text = .ok found ∧
      (∃ e ∈ found, jsonbEq (.scalar (.numeric tenPointZero)) e = true) ∧
      asText (.scalar (.numeric tenPointZero)) = some tenPointZero.text ∧
      tenPointZero.text ≠ ten.text ∧ ¬ InvertsText ten.text := by
  let := identityHash
  have hlength : ten.text.bytes.length ≤ 0x0FFFFFFF := by decide +kernel
  have hbool : ¬ IsBoolText ten.text := by decide +kernel
  have hmatches := textMatches_numeral hlength hbool (isNumeral_text ten)
  rw [numericIn_text] at hmatches
  have hequal : jsonbEq (.scalar (.numeric tenPointZero)) (.scalar (.numeric ten)) = true :=
    jsonbEq_numeric.mpr ⟨tenPointZero, rfl, rfl⟩
  have hfound : ∃ e ∈ [toJsonb ten.text, .scalar (.numeric ten)],
      jsonbEq (.scalar (.numeric tenPointZero)) e = true :=
    ⟨_, List.mem_cons_of_mem _ List.mem_cons_self, hequal⟩
  have hne : tenPointZero.text ≠ ten.text := by
    intro h
    have hdscale := congrArg Numeric.dscale (Numeric.text_injective h)
    exact absurd hdscale (by decide)
  refine ⟨_, hmatches, hfound, asText_numeric.mpr rfl, hne, ?_⟩
  rintro ⟨⟨found, hreturns, hinverts⟩, -⟩
  rw [hmatches] at hreturns
  cases hreturns
  exact hne (asText_numeric.mp ((hinverts (.scalar (.numeric tenPointZero)) trivial).mpr hfound))

end Promscale.Tracing
