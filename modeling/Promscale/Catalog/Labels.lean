import Promscale.Catalog.Growth

/-!
# Names, labels and label keys

The names derived from user input, and the functions that look up a label or a label key
and create it when it is not there.
-/
namespace Promscale.Catalog

open Promscale.Lib

/-! ## Names -/

def castNameChars : List Char → Nat → List Char
  | [], _ => []
  | ch :: rest, room => if ch.utf8Size ≤ room then ch :: castNameChars rest (room - ch.utf8Size) else []

/-- `::name` cuts a text off after the last character within 63 bytes. -/
def castName (s : String) : String := String.ofList (castNameChars s.toList 63)

def pgNameWithSuffix (fullName suffix : String) : String :=
  castName (String.ofList (fullName.toList.take (62 - (suffix.length + 1))) ++ "_" ++ suffix)

def pgNameUnique (fullNameArg suffix : String) : String :=
  if fullNameArg.length < 62 then castName fullNameArg else pgNameWithSuffix fullNameArg suffix

/-! ## Labels -/

/-- `INSERT INTO _prom_catalog.label(key, value) .. ON CONFLICT DO NOTHING RETURNING id`. -/
def insertLabel (keyName valueName : String) : Sql (Option Nat) := do
  let c ← get
  match c.label.insert ⟨c.labelIdSeq + 1, keyName, valueName⟩ (by simp [Label.constraints]) with
  | some label =>
    set { c with label := label, labelIdSeq := c.labelIdSeq + 1 }
    pure (some (c.labelIdSeq + 1))
  | none =>
    set { c with labelIdSeq := c.labelIdSeq + 1 }
    pure none

def getNewLabelIdLoop (keyName valueName : String) : Nat → Sql Nat
  | 0 => throw .loopsForever
  | fuel + 1 => do
    match ← insertLabel keyName valueName with
    | some id => pure id
    | none =>
      match (← get).findLabel keyName valueName with
      | some l => pure l.id
      | none => getNewLabelIdLoop keyName valueName fuel

/-- Each round takes the next id, and at most every label of the table can be in its way. -/
def getNewLabelId (keyName valueName : String) : Sql Nat := do
  let c ← get
  getNewLabelIdLoop keyName valueName (c.label.rows.length + 1)

def getOrCreateLabelId (keyName valueName : String) : Sql Nat := do
  match (← get).findLabel keyName valueName with
  | some l => pure l.id
  | none => getNewLabelId keyName valueName

/-- The row is the label's in the catalog. -/
def HasLabel (c : Catalog) (id : Nat) (key value : String) : Prop :=
  (⟨id, key, value⟩ : Label) ∈ c.label.rows

theorem hasLabel_of_find {c : Catalog} {key value : String} {l : Label}
    (h : c.findLabel key value = some l) : c.HasLabel l.id key value := by
  obtain ⟨hl, rfl, rfl⟩ := (findLabel_eq_some_iff c key value l).mp h
  exact hl

/-- A new label takes the next id of its sequence. -/
theorem insertedLabel_grows {c : Catalog} {label : Table Label Label.constraints}
    {keyName valueName : String} {hcheck}
    (h : c.label.insert ⟨c.labelIdSeq + 1, keyName, valueName⟩ hcheck = some label) :
    Grows c { c with label := label, labelIdSeq := c.labelIdSeq + 1 } where
  extends_ := {
    Extends.refl c with
    label := fun l hl => (Table.mem_insert h l).mpr (.inl hl)
    newLabel := fun l hl => by
      rcases (Table.mem_insert h l).mp hl with hold | rfl
      · exact .inl hold
      · exact .inr (Nat.lt_succ_self _)
    labelIdSeq := Nat.le_succ _
    epoch := ⟨rfl, rfl, rfl⟩ }
  wellFormed hwf := {
    hwf with
    labelId := fun l hl => by
      rcases (Table.mem_insert h l).mp hl with hold | rfl
      · exact Nat.le_succ_of_le (hwf.labelId l hold)
      · exact Nat.le_refl _
    seriesTable := fun T t ht => by
      obtain ⟨m, hm, hschema, htable, hid, hlabel⟩ := hwf.seriesTable T t ht
      exact ⟨m, hm, hschema, htable, hid, (Table.mem_insert h _).mpr (.inl hlabel)⟩ }

theorem burnLabelId_grows (c : Catalog) (n : Nat) :
    Grows c { c with labelIdSeq := c.labelIdSeq + n } where
  extends_ := { Extends.refl c with
    labelIdSeq := Nat.le_add_right _ _
    epoch := ⟨rfl, rfl, rfl⟩ }
  wellFormed hwf :=
    { hwf with labelId := fun l hl => Nat.le_trans (hwf.labelId l hl) (Nat.le_add_right _ _) }

theorem insertLabel_grows (c : Catalog) (keyName valueName : String) :
    Ensures (insertLabel keyName valueName) c fun id? c' =>
      Grows c c' ∧ ∀ id, id? = some id → c'.HasLabel id keyName valueName := by
  unfold insertLabel
  apply Ensures.bind
  apply Ensures.get
  split
  · rename_i label h
    apply Ensures.bind
    apply Ensures.set
    apply Ensures.pure
    refine ⟨insertedLabel_grows h, ?_⟩
    rintro id ⟨⟩
    exact (Table.mem_insert h _).mpr (.inr rfl)
  · apply Ensures.bind
    apply Ensures.set
    apply Ensures.pure
    exact ⟨burnLabelId_grows c 1, by rintro id ⟨⟩⟩

theorem getNewLabelIdLoop_grows (keyName valueName : String) (fuel : Nat) (c : Catalog) :
    Ensures (getNewLabelIdLoop keyName valueName fuel) c fun id c' =>
      Grows c c' ∧ c'.HasLabel id keyName valueName := by
  induction fuel generalizing c with
  | zero => exact Ensures.throw
  | succ fuel ih =>
    unfold getNewLabelIdLoop
    apply Ensures.bind
    refine (insertLabel_grows c keyName valueName).mono ?_
    rintro id? c₁ ⟨hgrows, hid⟩
    cases id? with
    | some id =>
      apply Ensures.pure
      exact ⟨hgrows, hid id rfl⟩
    | none =>
      apply Ensures.bind
      apply Ensures.get
      split
      · rename_i l hfind
        apply Ensures.pure
        exact ⟨hgrows, hasLabel_of_find hfind⟩
      · refine (ih c₁).mono ?_
        rintro id c₂ ⟨hgrows', hlabel⟩
        exact ⟨hgrows.trans hgrows', hlabel⟩

theorem getOrCreateLabelId_grows (c : Catalog) (keyName valueName : String) :
    Ensures (getOrCreateLabelId keyName valueName) c fun id c' =>
      Grows c c' ∧ c'.HasLabel id keyName valueName := by
  unfold getOrCreateLabelId
  apply Ensures.bind
  apply Ensures.get
  split
  · rename_i l hfind
    apply Ensures.pure
    exact ⟨.refl c, hasLabel_of_find hfind⟩
  · unfold getNewLabelId
    apply Ensures.bind
    apply Ensures.get
    exact getNewLabelIdLoop_grows keyName valueName _ c

theorem getNewLabelIdLoop_effects (keyName valueName : String) (fuel : Nat) (c : Catalog) :
    Ensures (getNewLabelIdLoop keyName valueName fuel) c fun _ c' =>
      ∃ label labelIdSeq, c' = { c with label := label, labelIdSeq := labelIdSeq } := by
  induction fuel generalizing c with
  | zero => exact Ensures.throw
  | succ fuel ih =>
    unfold getNewLabelIdLoop insertLabel
    apply Ensures.bind
    apply Ensures.bind
    apply Ensures.get
    split
    · apply Ensures.bind
      apply Ensures.set
      apply Ensures.pure
      exact Ensures.pure ⟨_, _, rfl⟩
    · apply Ensures.bind
      apply Ensures.set
      apply Ensures.pure
      apply Ensures.bind
      apply Ensures.get
      split
      · exact Ensures.pure ⟨_, _, rfl⟩
      · refine (ih _).mono ?_
        rintro _ _ ⟨label, labelIdSeq, rfl⟩
        exact ⟨label, labelIdSeq, rfl⟩

/-- Making a label changes nothing else. -/
theorem getOrCreateLabelId_effects (c : Catalog) (keyName valueName : String) :
    Ensures (getOrCreateLabelId keyName valueName) c fun _ c' =>
      ∃ label labelIdSeq, c' = { c with label := label, labelIdSeq := labelIdSeq } := by
  unfold getOrCreateLabelId
  apply Ensures.bind
  apply Ensures.get
  split
  · exact Ensures.pure ⟨_, _, rfl⟩
  · unfold getNewLabelId
    apply Ensures.bind
    apply Ensures.get
    exact getNewLabelIdLoop_effects keyName valueName _ c

/-! ## Label keys -/

def findLabelKey (c : Catalog) (key : String) : Option LabelKey :=
  c.labelKey.rows.find? fun lk => lk.key = key

def newLabelKey (newId : Nat) (newKey : String) : LabelKey where
  id := newId
  key := newKey
  valueColumnName := pgNameUnique newKey (toString newId)
  idColumnName := pgNameUnique (newKey ++ "_id") (toString newId ++ "_id")

/-- The loop keeps its id, so a conflict on the id alone would send it round for ever. -/
def createLabelKey (newKey : String) : Sql LabelKey := do
  let c ← get
  match c.labelKey.insert (newLabelKey (c.labelKeyIdSeq + 1) newKey) rfl with
  | some labelKey =>
    set { c with labelKey := labelKey, labelKeyIdSeq := c.labelKeyIdSeq + 1 }
    pure (newLabelKey (c.labelKeyIdSeq + 1) newKey)
  | none =>
    match c.findLabelKey newKey with
    | some lk =>
      set { c with labelKeyIdSeq := c.labelKeyIdSeq + 1 }
      pure lk
    | none => throw .loopsForever

def getOrCreateLabelKey (key : String) : Sql LabelKey := do
  match (← get).findLabelKey key with
  | some lk => pure lk
  | none => createLabelKey key

theorem getOrCreateLabelKey_grows (c : Catalog) (key : String) :
    Ensures (getOrCreateLabelKey key) c fun _ c' =>
      Grows c c' ∧ c'.labelKeyPosition = c.labelKeyPosition := by
  unfold getOrCreateLabelKey
  apply Ensures.bind
  apply Ensures.get
  split
  · exact Ensures.pure ⟨.refl c, rfl⟩
  · unfold createLabelKey
    apply Ensures.bind
    apply Ensures.get
    split
    · apply Ensures.bind
      apply Ensures.set
      apply Ensures.pure
      exact ⟨.of_eq rfl rfl rfl rfl rfl rfl rfl rfl (fun _ h => h) ⟨rfl, rfl, rfl⟩, rfl⟩
    · split
      · apply Ensures.bind
        apply Ensures.set
        apply Ensures.pure
        exact ⟨.of_eq rfl rfl rfl rfl rfl rfl rfl rfl (fun _ h => h) ⟨rfl, rfl, rfl⟩, rfl⟩
      · exact Ensures.throw

end Promscale.Catalog
