import Promscale.Tracing.Operations

/-!
# Putting again what spans refer to

A call of `put_operation`, `put_schema_url` or `put_instrumentation_lib` that has returned is
on record: rows hold its arguments under the id it returned. Every later call with the same
arguments finds that record and returns the same id, but for a library without a schema URL:
no row's null equals the null looked for, and none is in conflict with it.
-/
namespace Promscale.Tracing

open Promscale.Lib
open Promscale.Jsonb

inductive RefFunction where
  | putOperation
  | putSchemaUrl
  | putInstrumentationLib
  deriving DecidableEq, Repr

def RefCall.function : RefCall → RefFunction
  | putOperation .. => .putOperation
  | putSchemaUrl .. => .putSchemaUrl
  | putInstrumentationLib .. => .putInstrumentationLib

/-- The call is `put_instrumentation_lib` with a null schema URL. -/
def RefCall.NullSchemaUrl : RefCall → Prop
  | putInstrumentationLib _ _ schemaUrlId => schemaUrlId = none
  | _ => False

variable {N : Type} [JsonbFunctions N]

/-- Rows hold the arguments of the call under the id. -/
def RefCall.Recorded (s : State N) (i : Nat) : RefCall → Prop
  | putOperation name spanName spanKind => ∃ t ∈ s.tag.table.rows, t.key = serviceName ∧
      jsonbEq t.value (toJsonb name) = true ∧
      ⟨i, t.id, spanKind, spanName⟩ ∈ s.operation.table.rows
  | putSchemaUrl schemaUrl => ∃ hurl, ⟨i, schemaUrl, hurl⟩ ∈ s.schemaUrl.table.rows
  | putInstrumentationLib name version schemaUrlId => ∃ n v, name = some n ∧ version = some v ∧
      ⟨i, n, v, schemaUrlId⟩ ∈ s.instrumentationLib.table.rows

theorem RefCall.Recorded.mono {s s' : State N} {i : Nat} {c : RefCall} (h : c.Recorded s i)
    (hextends : s.Extends s') : c.Recorded s' i := by
  cases c with
  | putOperation name spanName spanKind =>
    obtain ⟨t, ht, hkey, hvalue, ho⟩ := h
    obtain ⟨m, hm⟩ := hextends.tag t ht
    exact ⟨_, hm, hkey, hvalue, hextends.operation ho⟩
  | putSchemaUrl schemaUrl =>
    obtain ⟨hurl, hu⟩ := h
    exact ⟨hurl, hextends.schemaUrl hu⟩
  | putInstrumentationLib name version schemaUrlId =>
    obtain ⟨n, v, hn, hv, hil⟩ := h
    exact ⟨n, v, hn, hv, hextends.instrumentationLib hil⟩

theorem Operation.eq_of_matches {o : Operation} {serviceNameId : Nat} {spanKind : SpanKind}
    {spanName : PgText} (h : o.matches serviceNameId spanKind spanName = true) :
    o = ⟨o.id, serviceNameId, spanKind, spanName⟩ := by
  simp only [Operation.matches, Bool.and_eq_true, decide_eq_true_eq] at h
  obtain ⟨⟨rfl, rfl⟩, rfl⟩ := h
  rfl

theorem InstrumentationLib.eq_of_matches {il : InstrumentationLib} {name version : PgText}
    {schemaUrlId : Option Nat} (h : il.matches name version schemaUrlId = true) :
    il = ⟨il.id, name, version, schemaUrlId⟩ := by
  simp only [InstrumentationLib.matches, Bool.and_eq_true, decide_eq_true_eq] at h
  obtain ⟨⟨⟨rfl, rfl⟩, _⟩, rfl⟩ := h
  rfl

namespace State
variable {s s' : State N} {i : Nat}

/-- The tag the first half of `put_operation` returns the id of. -/
theorem putServiceName_tag {name : PgText} (h : s.putServiceName name = .ok (i, s')) :
    ∃ t ∈ s'.tag.table.rows, t.key = serviceName ∧ jsonbEq t.value (toJsonb name) = true ∧
      t.id = i := by
  obtain ⟨_, hintern⟩ := putServiceName_returns h
  obtain ⟨t, ht, hp, hi⟩ := hintern.mem (fun _ => rfl) fun n => by
    simp [Tag.matches_iff.mpr]
  obtain ⟨hmatches, _⟩ := Bool.and_eq_true _ _ ▸ hp
  obtain ⟨hkey, hvalue⟩ := Tag.matches_iff.mp hmatches
  exact ⟨t, ht, hkey, hvalue, hi⟩

/-- A call that returns leaves its record. -/
theorem refCall_recorded {c : RefCall} (h : c.run s = .ok (i, s')) : c.Recorded s' i := by
  cases c with
  | putOperation name spanName spanKind =>
    obtain ⟨j, s₁, hservice, hs', hintern⟩ := putOperation_returns h
    obtain ⟨t, ht, hkey, hvalue, rfl⟩ := putServiceName_tag hservice
    obtain ⟨o, ho, hmatches, rfl⟩ := hintern.mem (fun _ => rfl) fun n => by
      simp [Operation.matches]
    refine ⟨t, ?_, hkey, hvalue, ?_⟩
    · rw [hs']
      exact ht
    · rwa [← Operation.eq_of_matches hmatches]
  | putSchemaUrl schemaUrl =>
    obtain ⟨_, hurl, hintern⟩ := putSchemaUrl_returns h
    obtain ⟨u, hu, hp, rfl⟩ := hintern.mem (fun _ => rfl) fun n => by simp
    obtain ⟨id, url⟩ := u
    obtain rfl : url = ⟨schemaUrl, hurl⟩ := NonemptyText.ext (of_decide_eq_true hp)
    exact ⟨hurl, hu⟩
  | putInstrumentationLib name version schemaUrlId =>
    obtain ⟨_, n, v, hn, hv, hintern⟩ := putInstrumentationLib_returns h
    refine ⟨n, v, hn, hv, ?_⟩
    cases hintern with
    | found il hil hp hi ht =>
      rw [ht, ← hi, ← InstrumentationLib.eq_of_matches hp]
      exact hil
    | made _ _ _ hrows _ => simp [hrows]

/-- An id is on record for one call of a function only. -/
theorem recorded_injective {c c' : RefCall} (h : c.Recorded s i) (h' : c'.Recorded s i)
    (hfunction : c'.function = c.function) : c' = c := by
  cases c <;> cases c' <;> simp only [RefCall.function, reduceCtorEq] at hfunction
  case putOperation =>
    obtain ⟨t, ht, _, hvalue, ho⟩ := h
    obtain ⟨t', ht', _, hvalue', ho'⟩ := h'
    have hrow := s.operation.table.eq_of_conflict ho ho' (by simp [Operation.constraints])
    obtain ⟨_, hid, hkind, hname⟩ := Operation.mk.injEq .. ▸ hrow
    obtain rfl := tag_eq_of_id ht ht' hid
    have hname' := jsonbEq_trans (jsonbEq_comm (N := N) _ _ ▸ hvalue') hvalue
    rw [jsonbEq_toJsonb] at hname'
    rw [hname', hkind, hname]
  case putSchemaUrl =>
    obtain ⟨hurl, hu⟩ := h
    obtain ⟨hurl', hu'⟩ := h'
    have hrow := s.schemaUrl.table.eq_of_conflict hu hu' (by simp [SchemaUrl.constraints])
    cases hrow
    rfl
  case putInstrumentationLib =>
    obtain ⟨n, v, rfl, rfl, hil⟩ := h
    obtain ⟨n', v', rfl, rfl, hil'⟩ := h'
    have hrow := s.instrumentationLib.table.eq_of_conflict hil hil'
      (by simp [InstrumentationLib.constraints])
    cases hrow
    rfl

/-- The first half of `put_operation` finds a tag that is there. -/
theorem putServiceName_again (hs : s.Sound) {name : PgText} {t : Tag N}
    (ht : t ∈ s.tag.table.rows) (hkey : t.key = serviceName)
    (hvalue : jsonbEq t.value (toJsonb name) = true) : s.putServiceName name = .ok (t.id, s) := by
  unfold putServiceName
  rw [IdTable.intern_finds ht]
  · simp [Tag.matches_iff.mpr ⟨hkey, hvalue⟩, hs.keyId_serviceName ht hkey]
  · intro t' ht' hp
    have hmatches := (Bool.and_eq_true _ _ ▸ hp).1
    obtain ⟨hkey', hvalue'⟩ := Tag.matches_iff.mp hmatches
    have hsame := jsonbEq_trans hvalue' (jsonbEq_comm (N := N) _ _ ▸ hvalue)
    rw [tag_eq_of_value ht' ht (hkey'.trans hkey.symm) hsame]

/-- A call on record finds its record, unless it looks for a null. -/
theorem refCall_again (hs : s.Sound) {c : RefCall} (h : c.Recorded s i)
    (hnull : ¬ c.NullSchemaUrl) : c.run s = .ok (i, s) := by
  cases c with
  | putOperation name spanName spanKind =>
    obtain ⟨t, ht, hkey, hvalue, ho⟩ := h
    simp only [RefCall.run, putOperation, putServiceName_again hs ht hkey hvalue]
    rw [IdTable.intern_finds ho (by simp [Operation.matches])]
    intro o ho' hp
    rw [s.operation.table.eq_of_conflict ho' ho]
    rw [Operation.eq_of_matches hp]
    simp [Operation.constraints]
  | putSchemaUrl schemaUrl =>
    obtain ⟨hurl, hu⟩ := h
    simp only [RefCall.run, putSchemaUrl, dif_pos hurl]
    rw [IdTable.intern_finds hu (by simp)]
    intro u hu' hp
    rw [s.schemaUrl.table.eq_of_conflict hu' hu]
    have hsame : u.url = ⟨schemaUrl, hurl⟩ := NonemptyText.ext (of_decide_eq_true hp)
    simp [SchemaUrl.constraints, hsame]
  | putInstrumentationLib name version schemaUrlId =>
    obtain ⟨n, v, rfl, rfl, hil⟩ := h
    have hsome : schemaUrlId.isSome = true := Option.isSome_iff_ne_none.mpr hnull
    simp only [RefCall.run, putInstrumentationLib]
    rw [IdTable.intern_finds hil (by simp [InstrumentationLib.matches, hsome])]
    intro il hil' hp
    rw [s.instrumentationLib.table.eq_of_conflict hil' hil]
    rw [InstrumentationLib.eq_of_matches hp]
    simp [InstrumentationLib.constraints, hsome]

/-- A library without a schema URL gets an id that was on no row before. -/
theorem nullSchemaUrl_new (hs : s.Sound) {name version : Option PgText}
    (h : s.putInstrumentationLib name version none = .ok (i, s')) :
    ∀ il ∈ s.instrumentationLib.table.rows, il.id < i := by
  intro il hil
  obtain ⟨_, n, v, _, _, hintern⟩ := putInstrumentationLib_returns h
  cases hintern with
  | found il' _ hp _ _ => simp [InstrumentationLib.matches] at hp
  | made _ hi _ _ _ =>
    have := hs.instrumentationLibNumbered il hil
    omega

end State

/-- Once a call has returned, the same call returns the same id and changes nothing, whatever
happens between, exactly when it is not `put_instrumentation_lib` with a null schema URL. Other
arguments never get that id. -/
theorem refCall_again_iff (wellKnown : WellKnownTags) (before between : List (Op N))
    (c : RefCall) {i : Nat} {s₁ : State N}
    (h : c.run ((State.init wellKnown).after before) = .ok (i, s₁)) :
    (c.run (s₁.after between) = .ok (i, s₁.after between) ↔ ¬ c.NullSchemaUrl) ∧
      ∀ (c' : RefCall) (j : Nat) (s₂ : State N), c'.function = c.function → c' ≠ c →
        c'.run (s₁.after between) = .ok (j, s₂) → j ≠ i := by
  have hs₁ := State.refCall_sound h (State.init_after_sound wellKnown before)
  have hs := State.after_sound hs₁ between
  have hrecorded := (State.refCall_recorded h).mono (State.after_extends s₁ between)
  refine ⟨⟨?_, State.refCall_again hs hrecorded⟩, ?_⟩
  · intro hagain hnull
    cases c with
    | putOperation => exact hnull
    | putSchemaUrl => exact hnull
    | putInstrumentationLib name version schemaUrlId =>
      obtain ⟨n, v, _, _, hil⟩ := hrecorded
      cases hnull
      exact absurd (State.nullSchemaUrl_new hs hagain _ hil) (Nat.lt_irrefl i)
  · intro c' j s₂ hfunction hne h' hji
    subst hji
    have hrecorded₂ := hrecorded.mono (State.refCall_extends h')
    exact hne (State.recorded_injective hrecorded₂ (State.refCall_recorded h') hfunction)

/-- A URL put, then a library with it, then the URL again. -/
theorem refCall_again_iff_schemaUrl : ∃ s₁ : State Empty,
    (RefCall.putSchemaUrl letterA).run ((State.init serviceNameOnly).after []) = .ok (1, s₁) ∧
      (RefCall.putSchemaUrl letterA).run (s₁.after
        [.ref (.putInstrumentationLib (some letterA) (some letterA) (some 1))]) =
      .ok (1, s₁.after [.ref (.putInstrumentationLib (some letterA) (some letterA) (some 1))]) :=
  ⟨_, rfl, (refCall_again_iff serviceNameOnly [] _ _ rfl).1.mpr (by simp [RefCall.NullSchemaUrl])⟩

/-- `put_instrumentation_lib('a', 'a', NULL)` twice. -/
theorem putInstrumentationLib_twice : ∃ s₁ s₂ : State Empty,
    (State.init serviceNameOnly).putInstrumentationLib (some letterA) (some letterA) none =
      .ok (1, s₁) ∧ s₁.putInstrumentationLib (some letterA) (some letterA) none = .ok (2, s₂) ∧
    s₁.instrumentationLib.table.rows.length = 1 ∧ s₂.instrumentationLib.table.rows.length = 2 :=
  ⟨_, _, rfl, rfl, rfl, rfl⟩

end Promscale.Tracing
