import Promscale.Tracing.TagTypes

/-!
# Deleting all traces

`ps_trace.delete_all_traces` is to restore the state of a new database. It keeps the well-known
tag keys with the bitmaps they have by then.
-/
namespace Promscale.Tracing

open Promscale.Lib
open Promscale.Jsonb

/-- A row of `_ps_trace.event`. -/
structure Event where
  time : Int
  traceId : Nat
  spanId : Int
  eventNbr : Int
  name : PgText
  tags : TagMap
  droppedTagsCount : Int
  deriving DecidableEq

/-- A row of `_ps_trace.link`. -/
structure Link where
  traceId : Nat
  spanId : Int
  spanStartTime : Int
  linkedTraceId : Nat
  linkedSpanId : Int
  linkNbr : Int
  traceState : Option PgText
  tags : TagMap
  droppedTagsCount : Int
  deriving DecidableEq

section
variable {N : Type}

inductive TraceOp (N : Type) where
  | catalog (op : Op N)
  | insertEvent (e : Event)
  | insertLink (l : Link)
  | dropEvents (p : Event → Bool)
  | dropLinks (p : Link → Bool)
  | deleteAllTraces

/-! ## The bitmaps of the well-known keys -/

/-- What `put_tag_key` makes of the bitmap of a key that is there. -/
def widen (tagType mask : TagType) : TagType :=
  if tagType &&& mask = 0 then tagType ||| mask else tagType

/-- The mask the operation brings for a tag key, if it is about that. -/
def TraceOp.maskFor (key : TagK) : TraceOp N → Option TagType
  | .catalog (.tag (.putTagKey key' tagType)) => if key' = key then some tagType else none
  | _ => none

def masksFor (ops : List (TraceOp N)) (key : TagK) : List TagType := ops.filterMap (·.maskFor key)

/-- A well-known key after the operations. -/
def TagKey.widened (ops : List (TraceOp N)) (k : TagKey) : TagKey :=
  { k with tagType := (masksFor ops k.key).foldl widen k.tagType }

/-- The well-known keys after the operations. -/
def WellKnownTags.widened (wellKnown : WellKnownTags) (ops : List (TraceOp N)) : WellKnownTags where
  table := wellKnown.table.update (·.widened ops) (fun _ _ => rfl) fun _ => rfl
  ids := by
    intro k hk
    obtain ⟨k', hk', rfl⟩ := (Table.mem_update ..).mp hk
    exact wellKnown.ids k' hk'
  hasServiceName := by
    obtain ⟨tagType, hmem⟩ := wellKnown.hasServiceName
    exact ⟨_, (Table.mem_update ..).mpr ⟨_, hmem, rfl⟩⟩

theorem masksFor_append (ops : List (TraceOp N)) (op : TraceOp N) (key : TagK) :
    masksFor (ops ++ [op]) key = masksFor ops key ++ (op.maskFor key).toList := by
  unfold masksFor
  rw [List.filterMap_append]
  cases h : op.maskFor key <;> simp [h]

theorem TagKey.widened_append (ops : List (TraceOp N)) (op : TraceOp N) (k : TagKey) :
    k.widened (ops ++ [op]) =
      { k.widened ops with
        tagType := (op.maskFor k.key).elim (k.widened ops).tagType (widen (k.widened ops).tagType) } := by
  unfold TagKey.widened
  rw [masksFor_append, List.foldl_append]
  cases op.maskFor k.key <;> rfl

theorem TagKey.widened_append_none {ops : List (TraceOp N)} {op : TraceOp N} {k : TagKey}
    (h : op.maskFor k.key = none) : k.widened (ops ++ [op]) = k.widened ops := by
  rw [widened_append, h]
  rfl

theorem TraceOp.maskFor_putTagKey (key key' : TagK) (tagType : TagType) :
    TraceOp.maskFor key' (.catalog (.tag (.putTagKey key tagType)) : TraceOp N) =
      if key = key' then some tagType else none := rfl

variable [JsonbFunctions N]

/-! ## The calls -/

/-- The tracing catalog with the events and links of spans, which no constraint is about. -/
structure Traces (N : Type) [JsonbFunctions N] where
  state : State N
  event : List Event
  link : List Link

/-- Each of the sequences begins again. -/
def State.deleteAllTraces (s : State N) : State N where
  tagKey := ⟨s.tagKey.table.delete fun k => 1000 ≤ k.id, 1000⟩
  tag := ⟨.empty, 0⟩
  operation := ⟨.empty, 0⟩
  schemaUrl := ⟨.empty, 0⟩
  instrumentationLib := ⟨.empty, 0⟩
  span := .empty

namespace Traces

def init (wellKnown : WellKnownTags) : Traces N := ⟨.init wellKnown, [], []⟩

def deleteAllTraces (x : Traces N) : Traces N := ⟨x.state.deleteAllTraces, [], []⟩

def step (x : Traces N) : TraceOp N → Traces N
  | .catalog op => { x with state := x.state.step op }
  | .insertEvent e => { x with event := x.event ++ [e] }
  | .insertLink l => { x with link := x.link ++ [l] }
  | .dropEvents p => { x with event := x.event.filter fun e => !p e }
  | .dropLinks p => { x with link := x.link.filter fun l => !p l }
  | .deleteAllTraces => x.deleteAllTraces

def after (x : Traces N) (ops : List (TraceOp N)) : Traces N := ops.foldl step x

theorem after_append (x : Traces N) (ops more : List (TraceOp N)) :
    x.after (ops ++ more) = (x.after ops).after more := List.foldl_append

end Traces

/-- The keys up to the id 1000 are the well-known ones, and new ones come after that. -/
structure KeepsWellKnown (wellKnown : WellKnownTags) (ops : List (TraceOp N)) (s : State N) :
    Prop where
  rows : s.tagKey.table.rows.filter (·.id < 1000) = wellKnown.table.rows.map (·.widened ops)
  seq : 1000 ≤ s.tagKey.seq

namespace KeepsWellKnown

variable {wellKnown : WellKnownTags} {ops : List (TraceOp N)} {s s' : State N}

theorem mem (h : KeepsWellKnown wellKnown ops s) {k : TagKey} (hk : k ∈ wellKnown.table.rows) :
    k.widened ops ∈ s.tagKey.table.rows := by
  have hmem : k.widened ops ∈ s.tagKey.table.rows.filter (·.id < 1000) := by
    rw [h.rows]
    exact List.mem_map_of_mem hk
  exact (List.mem_filter.mp hmem).1

/-- Nothing the operation does is about a well-known key. -/
theorem of_none (h : KeepsWellKnown wellKnown ops s) {op : TraceOp N}
    (hnone : ∀ k ∈ wellKnown.table.rows, op.maskFor k.key = none)
    (hrows : s'.tagKey.table.rows.filter (·.id < 1000) = s.tagKey.table.rows.filter (·.id < 1000))
    (hseq : s.tagKey.seq ≤ s'.tagKey.seq) : KeepsWellKnown wellKnown (ops ++ [op]) s' where
  rows := by
    rw [hrows, h.rows]
    exact List.map_congr_left fun k hk => (TagKey.widened_append_none (hnone k hk)).symm
  seq := Nat.le_trans h.seq hseq

/-- The rows a call that returns leaves, when the key was there. -/
theorem rows_of_found {t t' : IdTable TagKey TagKey.constraints} {key : TagK} {k : TagKey}
    {tagType : TagType} (hk : k ∈ t.table.rows) (hkey : k.key = key)
    (hrows : t'.table.rows = if k.tagType &&& tagType = 0 then
      t.table.rows.map (TagKey.bitmapped.orRow (·.id = k.id) tagType) else t.table.rows) :
    t'.table.rows = t.table.rows.map fun r =>
      if r.key = key then { r with tagType := widen r.tagType tagType } else r := by
  have hsame : ∀ r ∈ t.table.rows, (r.key = key ↔ r = k) ∧ (r.id = k.id ↔ r = k) := by
    intro r hr
    refine ⟨⟨?_, fun heq => heq ▸ hkey⟩, ⟨?_, fun heq => heq ▸ rfl⟩⟩
    · intro heq
      exact t.table.eq_of_conflict hr hk (by simp [TagKey.constraints, heq, hkey])
    · intro heq
      exact t.table.eq_of_conflict hr hk (by simp [TagKey.constraints, heq])
  rw [hrows]
  split
  · rename_i hdisjoint
    refine List.map_congr_left fun r hr => ?_
    by_cases heq : r = k
    · subst heq
      simp [Bitmapped.orRow, TagKey.bitmapped, hkey, widen, hdisjoint]
    · have hkey' : r.key ≠ key := fun h => heq ((hsame r hr).1.mp h)
      have hid : r.id ≠ k.id := fun h => heq ((hsame r hr).2.mp h)
      simp [Bitmapped.orRow, TagKey.bitmapped, hkey', hid]
  · rename_i hcommon
    have hkept : ∀ r ∈ t.table.rows, (if r.key = key then
        { r with tagType := widen r.tagType tagType } else r) = id r := by
      intro r hr
      by_cases heq : r = k
      · subst heq
        rw [if_pos hkey, widen, if_neg hcommon]
        rfl
      · rw [if_neg fun h => heq ((hsame r hr).1.mp h)]
        rfl
    rw [List.map_congr_left hkept, List.map_id]

theorem putTagKey (h : KeepsWellKnown wellKnown ops s) {key : TagK} {tagType : TagType} {i : Nat}
    (hrun : s.putTagKey key tagType = .ok (i, s')) :
    KeepsWellKnown wellKnown (ops ++ [.catalog (.tag (.putTagKey key tagType))]) s' := by
  obtain ⟨k, -, -, hput⟩ := State.putTagKey_returns hrun
  cases hput with
  | found hk hkey hseq hrows =>
    refine ⟨?_, hseq ▸ h.seq⟩
    rw [rows_of_found hk (of_decide_eq_true hkey) hrows, List.filter_map]
    have hids : ((fun r : TagKey => decide (r.id < 1000)) ∘ fun r =>
        if r.key = key then { r with tagType := widen r.tagType tagType } else r) =
        fun r => decide (r.id < 1000) := by
      funext r
      by_cases hr : r.key = key
      · simp [hr]
      · simp [hr]
    rw [hids, h.rows, List.map_map]
    refine List.map_congr_left fun k' hk' => ?_
    rw [TagKey.widened_append, TraceOp.maskFor_putTagKey]
    by_cases hkey' : key = k'.key
    · subst hkey'
      simp [TagKey.widened]
    · have hne : (k'.widened ops).key ≠ key := fun heq => hkey' heq.symm
      simp [hkey', hne]
  | made row hrow hk hmissing hseq hrows hfree =>
    refine h.of_none ?_ ?_ (by omega)
    · intro k' hk'
      have hne := hmissing _ (h.mem hk')
      rw [TraceOp.maskFor_putTagKey, if_neg]
      intro heq
      simp [TagKey.widened, heq] at hne
    · cases hrow
      have hlarge : ¬ k.id < 1000 := by
        have hseq := h.seq
        rw [hk]
        change ¬ s.tagKey.seq + 1 < 1000
        omega
      rw [hrows, List.filter_append]
      simp [hlarge]

/-- A call that fails is not about a key that is there. -/
theorem putTagKey_fails (h : KeepsWellKnown wellKnown ops s) {key : TagK} {tagType : TagType}
    {e : PgError} (hrun : s.putTagKey key tagType = .error e) :
    KeepsWellKnown wellKnown (ops ++ [.catalog (.tag (.putTagKey key tagType))]) s := by
  refine h.of_none ?_ rfl (Nat.le_refl _)
  intro k hk
  rw [TraceOp.maskFor_putTagKey, if_neg]
  rintro rfl
  obtain ⟨i, s', hok⟩ := State.tagCall_returns (c := .putTagKey k.key tagType) ⟨_, h.mem hk, rfl⟩
  rw [TagCall.run, hrun] at hok
  cases hok

end KeepsWellKnown

/-- The operation puts a tag key. -/
def Op.PutsTagKey : Op N → Prop
  | .tag (.putTagKey ..) => True
  | _ => False

/-- Other operations leave the tag keys, but for ids that are lost. -/
theorem State.step_tagKey (s : State N) {op : Op N} (hop : ¬ op.PutsTagKey) :
    (s.step op).tagKey.table = s.tagKey.table ∧ s.tagKey.seq ≤ (s.step op).tagKey.seq := by
  have hsame : ∀ s' : State N, s'.tagKey = s.tagKey →
      s'.tagKey.table = s.tagKey.table ∧ s.tagKey.seq ≤ s'.tagKey.seq :=
    fun s' hs' => ⟨congrArg IdTable.table hs', Nat.le_of_eq (congrArg IdTable.seq hs'.symm)⟩
  cases op with
  | tag c =>
    cases c with
    | putTagKey key tagType => exact absurd trivial hop
    | putTag key value tagType =>
      refine commit_induct (hsame s rfl) fun i s' hrun => hsame s' ?_
      obtain ⟨t, -, hs', -⟩ := putTag_returns hrun
      rw [hs']
  | ref c =>
    refine commit_induct (hsame s rfl) fun i s' hrun => hsame s' ?_
    cases c with
    | putOperation name spanName spanKind =>
      obtain ⟨j, s₁, hservice, hs', -⟩ := putOperation_returns hrun
      obtain ⟨hs₁, -⟩ := putServiceName_returns hservice
      rw [hs', hs₁]
    | putSchemaUrl schemaUrl =>
      obtain ⟨hs', -⟩ := putSchemaUrl_returns hrun
      rw [hs']
    | putInstrumentationLib name version schemaUrlId =>
      obtain ⟨hs', -⟩ := putInstrumentationLib_returns hrun
      rw [hs']
  | insertSpan span =>
    refine hsame _ ?_
    simp only [step, insertSpan]
    split
    · rfl
    · rfl
  | dropSpans p => exact hsame _ rfl
  | loseIds tagKeys tags operations schemaUrls instrumentationLibs =>
    exact ⟨rfl, Nat.le_add_right _ _⟩

theorem KeepsWellKnown.catalog {wellKnown : WellKnownTags} {ops : List (TraceOp N)} {s : State N}
    (h : KeepsWellKnown wellKnown ops s) (op : Op N) :
    KeepsWellKnown wellKnown (ops ++ [.catalog op]) (s.step op) := by
  have hother : ¬ op.PutsTagKey → (∀ key, TraceOp.maskFor key (.catalog op) = none) →
      KeepsWellKnown wellKnown (ops ++ [.catalog op]) (s.step op) := by
    intro hop hnone
    obtain ⟨htable, hseq⟩ := s.step_tagKey hop
    exact h.of_none (fun k _ => hnone k.key) (by rw [htable]) hseq
  cases op with
  | tag c =>
    cases c with
    | putTagKey key tagType =>
      change KeepsWellKnown _ _ (s.commit (s.putTagKey key tagType))
      cases hrun : s.putTagKey key tagType with
      | error e => exact h.putTagKey_fails hrun
      | ok p => exact h.putTagKey hrun
    | putTag key value tagType => exact hother id fun _ => rfl
  | ref c => exact hother id fun _ => rfl
  | insertSpan span => exact hother id fun _ => rfl
  | dropSpans p => exact hother id fun _ => rfl
  | loseIds tagKeys tags operations schemaUrls instrumentationLibs => exact hother id fun _ => rfl

theorem KeepsWellKnown.step {wellKnown : WellKnownTags} {ops : List (TraceOp N)} {x : Traces N}
    (h : KeepsWellKnown wellKnown ops x.state) (op : TraceOp N) :
    KeepsWellKnown wellKnown (ops ++ [op]) (x.step op).state := by
  cases op with
  | catalog op => exact h.catalog op
  | insertEvent e => exact h.of_none (fun _ _ => rfl) rfl (Nat.le_refl _)
  | insertLink l => exact h.of_none (fun _ _ => rfl) rfl (Nat.le_refl _)
  | dropEvents p => exact h.of_none (fun _ _ => rfl) rfl (Nat.le_refl _)
  | dropLinks p => exact h.of_none (fun _ _ => rfl) rfl (Nat.le_refl _)
  | deleteAllTraces =>
    refine ⟨?_, Nat.le_refl _⟩
    have hrows : (x.state.deleteAllTraces.tagKey.table.rows.filter (·.id < 1000)) =
        x.state.tagKey.table.rows.filter (·.id < 1000) := by
      change (x.state.tagKey.table.rows.filter _).filter _ = _
      rw [List.filter_filter]
      refine List.filter_congr fun k _ => ?_
      by_cases hid : k.id < 1000
      · simp [hid]
      · simp [hid]
    change x.state.deleteAllTraces.tagKey.table.rows.filter _ = _
    rw [hrows, h.rows]
    exact List.map_congr_left fun k _ => (TagKey.widened_append_none rfl).symm

/-! ## The state of a new database -/

theorem KeepsWellKnown.after {wellKnown : WellKnownTags} {ops : List (TraceOp N)} {x : Traces N}
    (h : KeepsWellKnown wellKnown ops x.state) (more : List (TraceOp N)) :
    KeepsWellKnown wellKnown (ops ++ more) (x.after more).state := by
  induction more generalizing ops x with
  | nil => rwa [List.append_nil]
  | cons op more ih =>
    have hrest := ih (h.step op)
    rwa [List.append_assoc] at hrest

theorem init_keeps {wellKnown : WellKnownTags} (hids : ∀ k ∈ wellKnown.table.rows, k.id < 1000) :
    KeepsWellKnown wellKnown ([] : List (TraceOp N)) (State.init wellKnown) where
  rows := by
    change wellKnown.table.rows.filter _ = _
    rw [List.filter_eq_self.mpr fun k hk => by simp [hids k hk]]
    exact (List.map_id wellKnown.table.rows).symm
  seq := Nat.le_refl _

theorem State.deleteAllTraces_eq {wellKnown : WellKnownTags} {ops : List (TraceOp N)} {s : State N}
    (h : KeepsWellKnown wellKnown ops s) :
    s.deleteAllTraces = State.init (wellKnown.widened ops) := by
  have hrows : s.deleteAllTraces.tagKey.table = (wellKnown.widened ops).table := by
    refine Table.eq_of_rows ?_
    change s.tagKey.table.rows.filter _ = wellKnown.table.rows.map _
    rw [← h.rows]
    refine List.filter_congr fun k _ => ?_
    by_cases hid : k.id < 1000
    · simp [hid]
    · simp [hid, Nat.le_of_not_lt hid]
  unfold State.init
  rw [← hrows]
  rfl

end

/-! ## Bitmaps only grow -/

theorem widen_eq_self_iff {tagType mask : TagType} :
    widen tagType mask = tagType ↔ mask = 0 ∨ tagType &&& mask ≠ 0 := by
  unfold widen
  by_cases hdisjoint : tagType &&& mask = 0
  · rw [if_pos hdisjoint]
    constructor
    · intro hsame
      left
      calc mask = (tagType ||| mask) &&& mask := by
            rw [BitVec.and_or_distrib_right, BitVec.and_self, hdisjoint]
            exact BitVec.zero_or.symm
        _ = 0 := by rw [hsame, hdisjoint]
    · rintro (rfl | hcommon)
      · exact BitVec.or_zero
      · exact absurd hdisjoint hcommon
  · rw [if_neg hdisjoint]
    exact iff_of_true rfl (.inr hdisjoint)

theorem or_widen (tagType mask : TagType) : tagType ||| widen tagType mask = widen tagType mask := by
  unfold widen
  split
  · rw [← BitVec.or_assoc, BitVec.or_self]
  · exact BitVec.or_self

theorem or_foldl_widen (masks : List TagType) (tagType : TagType) :
    tagType ||| masks.foldl widen tagType = masks.foldl widen tagType := by
  induction masks generalizing tagType with
  | nil => exact BitVec.or_self
  | cons mask masks ih =>
    have hrest := ih (widen tagType mask)
    rw [List.foldl_cons, ← hrest, ← BitVec.or_assoc, or_widen]

/-- A bitmap that has grown never comes back to what it was. -/
theorem foldl_widen_eq_iff (masks : List TagType) (tagType : TagType) :
    masks.foldl widen tagType = tagType ↔ ∀ m ∈ masks, m = 0 ∨ tagType &&& m ≠ 0 := by
  induction masks generalizing tagType with
  | nil => simp
  | cons mask masks ih =>
    rw [List.foldl_cons, List.forall_mem_cons, ← widen_eq_self_iff]
    constructor
    · intro hsame
      have hgrown := or_foldl_widen masks (widen tagType mask)
      rw [hsame, BitVec.or_comm, or_widen] at hgrown
      rw [hgrown] at hsame
      exact ⟨hgrown, (ih tagType).mp hsame⟩
    · rintro ⟨hsame, hrest⟩
      rw [hsame]
      exact (ih tagType).mpr hrest

section
variable {N : Type}

theorem widened_eq_iff {wellKnown : WellKnownTags} {ops : List (TraceOp N)} :
    wellKnown.table.rows.map (·.widened ops) = wellKnown.table.rows ↔
      ∀ k ∈ wellKnown.table.rows, ∀ m ∈ masksFor ops k.key, m = 0 ∨ k.tagType &&& m ≠ 0 := by
  conv_lhs => rhs; rw [← List.map_id wellKnown.table.rows]
  rw [List.map_inj_left]
  refine forall₂_congr fun k _ => ?_
  rw [← foldl_widen_eq_iff]
  constructor
  · intro hsame
    exact congrArg TagKey.tagType hsame
  · intro hsame
    unfold TagKey.widened
    rw [hsame]
    rfl

variable [JsonbFunctions N]

/-- Deleting all traces gives a new database but for the bitmaps of the well-known keys, and gives
the one that there was at first exactly when every mask that was put for one of these keys was
empty or had a type in common with it. -/
theorem deleteAllTraces_restores (wellKnown : WellKnownTags)
    (hids : ∀ k ∈ wellKnown.table.rows, k.id < 1000) (ops : List (TraceOp N)) :
    ((Traces.init wellKnown).after ops).deleteAllTraces = Traces.init (wellKnown.widened ops) ∧
      (((Traces.init wellKnown).after ops).deleteAllTraces = Traces.init wellKnown ↔
        ∀ k ∈ wellKnown.table.rows, ∀ m ∈ masksFor ops k.key, m = 0 ∨ k.tagType &&& m ≠ 0) := by
  have heq : ((Traces.init wellKnown).after ops).deleteAllTraces =
      (Traces.init (wellKnown.widened ops) : Traces N) := by
    have hkeeps := KeepsWellKnown.after (x := (Traces.init wellKnown : Traces N)) (init_keeps hids) ops
    rw [List.nil_append] at hkeeps
    rw [Traces.deleteAllTraces, State.deleteAllTraces_eq hkeeps]
    rfl
  refine ⟨heq, ?_⟩
  rw [heq, ← widened_eq_iff]
  constructor
  · intro hsame
    exact congrArg (fun x : Traces N => x.state.tagKey.table.rows) hsame
  · intro hsame
    have htable : (wellKnown.widened ops).table = wellKnown.table := Table.eq_of_rows hsame
    unfold Traces.init State.init
    rw [htable]

/-- A type of its own for the key of service names survives. -/
def oddTagType : List (TraceOp Empty) :=
  [.catalog (.tag (.putTagKey serviceName 16)), .deleteAllTraces,
    .catalog (.ref (.putSchemaUrl letterA))]

theorem deleteAllTraces_restores_oddTagType :
    ((Traces.init serviceNameOnly).after oddTagType).deleteAllTraces =
        Traces.init (serviceNameOnly.widened oddTagType) ∧
      (((Traces.init serviceNameOnly).after oddTagType).deleteAllTraces =
          Traces.init serviceNameOnly ↔
        ∀ k ∈ serviceNameOnly.table.rows, ∀ m ∈ masksFor oddTagType k.key,
          m = 0 ∨ k.tagType &&& m ≠ 0) :=
  deleteAllTraces_restores serviceNameOnly (by
    intro k hk
    rw [List.mem_singleton.mp hk]
    decide) oddTagType

end

end Promscale.Tracing
