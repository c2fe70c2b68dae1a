import Mathlib.Data.String.Basic
import Promscale.Catalog.NewLabels
import Promscale.Lib.LockOrder

/-!
# The order in which labels are created

A label row that a transaction has created is locked until the transaction ends, so two
transactions that create the same labels in opposite orders can come to wait for each other. The
variant for jsonb sorts by the key of the label row, which is `NULL` for each label it has to
create, so these stay in the order of the keys of the object; the variant for arrays sorts by the
key it is given. The two orders are not the same.
-/
namespace Promscale.Catalog

open Promscale.Lib
open Promscale.Lib.LockOrder

/-- The order in which an object keeps its keys: shorter ones first. -/
def jsonbKeyLt (a b : String) : Prop :=
  a.toUTF8.data.toList.length < b.toUTF8.data.toList.length ∨
    a.toUTF8.data.toList.length = b.toUTF8.data.toList.length ∧
      a.toUTF8.data.toList < b.toUTF8.data.toList

instance (a b : String) : Decidable (jsonbKeyLt a b) := inferInstanceAs (Decidable (_ ∨ _))

theorem jsonbKeyLt_asymm {a b : String} (h : jsonbKeyLt a b) : ¬ jsonbKeyLt b a := by
  rintro (hlt | ⟨heq, hlt⟩) <;> rcases h with hlt' | ⟨heq', hlt'⟩
  · omega
  · omega
  · omega
  · exact List.lt_asymm hlt hlt'

/-- A collation orders all texts, and tells different ones apart. -/
structure IsCollation (le : String → String → Bool) : Prop where
  total : ∀ a b, le a b = true ∨ le b a = true
  trans : ∀ a b c, le a b = true → le b c = true → le a c = true
  antisymm : ∀ a b, le a b = true → le b a = true → a = b

/-- A label set for one of the two variants of `get_or_create_label_array`: the members of an
object, as it keeps them, or keys and values in any order. -/
inductive LabelArrayCall where
  | jsonb (js : List (String × String)) (stored : js.Pairwise fun a b => jsonbKeyLt a.1 b.1)
  | kv (metricName : String) (kvs : List (String × String)) (distinct : (kvs.map (·.1)).Nodup)

namespace LabelArrayCall

def isJsonb : LabelArrayCall → Bool
  | jsonb _ _ => true
  | kv _ _ _ => false

def labels : LabelArrayCall → List (String × String)
  | jsonb js _ => js
  | kv _ kvs _ => kvs

/-- `js->>'__name__'` or `metric_name`. -/
def metricName : LabelArrayCall → Option String
  | jsonb js _ => js.lookup nameKey
  | kv metricName _ _ => some metricName

def statement : LabelArrayCall → Sql (List Nat)
  | jsonb js _ => getOrCreateLabelArray js
  | kv metricName kvs _ => getOrCreateLabelArrayKv metricName kvs

/-- The labels a call has created, in order, but for one made with the metric. -/
def created (call : LabelArrayCall) (c c' : Catalog) : List (String × String) :=
  (newLabels c c').filter fun e => !c.madeWithMetric call.metricName e

/-- A label of the call that is not there. -/
def Missing (call : LabelArrayCall) (c : Catalog) (e : String × String) : Prop :=
  e ∈ call.labels ∧ c.isCreated call.metricName e = true

/-- The order of the keys that decides the order of the missing labels. -/
def Before (call : LabelArrayCall) (c : Catalog) (a b : String × String) : Prop :=
  match call with
  | jsonb _ _ => jsonbKeyLt a.1 b.1
  | kv _ _ _ => c.collate a.1 b.1 = true

end LabelArrayCall

/-! ## The order of one call -/

theorem pair_sublist {α : Type} {l : List α} {a b : α} (ha : a ∈ l) (hb : b ∈ l) (hne : a ≠ b) :
    [a, b].Sublist l ∨ [b, a].Sublist l := by
  obtain ⟨front, rest, rfl⟩ := List.append_of_mem ha
  rcases List.mem_append.mp hb with hb | hb
  · right
    have hfirst : [b].Sublist front := List.singleton_sublist.mpr hb
    have hsecond : [a].Sublist (a :: rest) := List.singleton_sublist.mpr List.mem_cons_self
    exact hfirst.append hsecond
  · left
    have hrest : [b].Sublist rest :=
      List.singleton_sublist.mpr ((List.mem_cons.mp hb).resolve_left hne.symm)
    exact (hrest.cons_cons a).trans (List.sublist_append_right _ _)

/-- Labels that are not there are equal for the sort, which leaves them as they stand. -/
theorem filter_insertionSort_labelKeyBefore (c : Catalog) (js : List (String × String))
    (p : String × String → Bool) (hp : ∀ e, p e = true → c.findLabel e.1 e.2 = none) :
    (js.insertionSort fun a b => labelKeyBefore c a b = true).filter p = js.filter p := by
  have hpairwise : (js.filter p).Pairwise fun a b => labelKeyBefore c a b = true := by
    rw [List.pairwise_iff_forall_sublist]
    intro a b hab
    have ha := hp a (List.of_mem_filter (hab.subset List.mem_cons_self))
    have hb := hp b (List.of_mem_filter (hab.subset (List.mem_cons_of_mem _ List.mem_cons_self)))
    simp [labelKeyBefore, ha, hb]
  have hsublist := (List.sublist_insertionSort hpairwise List.filter_sublist).filter p
  rw [List.filter_filter] at hsublist
  simp only [Bool.and_self] at hsublist
  have hlength := ((List.perm_insertionSort (fun a b => labelKeyBefore c a b = true) js).filter
    p).length_eq
  exact (hsublist.eq_of_length hlength.symm).symm

theorem pairwise_insertionSort_collate {c : Catalog} (hcollate : IsCollation c.collate)
    (kvs : List (String × String)) :
    (kvs.insertionSort fun a b => c.collate a.1 b.1 = true).Pairwise
      fun a b => c.collate a.1 b.1 = true := by
  have htotal : Std.Total fun a b : String × String => c.collate a.1 b.1 = true :=
    ⟨fun a b => hcollate.total a.1 b.1⟩
  have htrans : IsTrans (String × String) fun a b => c.collate a.1 b.1 = true :=
    ⟨fun a b d => hcollate.trans a.1 b.1 d.1⟩
  exact List.pairwise_insertionSort _ _

namespace LabelArrayCall

variable {c c' : Catalog} {A : List Nat}

theorem distinct_keys (call : LabelArrayCall) : (call.labels.map (·.1)).Nodup := by
  cases call with
  | jsonb js stored =>
    refine List.pairwise_map.mpr (stored.imp fun {a b} hlt heq => ?_)
    rw [heq] at hlt
    exact jsonbKeyLt_asymm hlt hlt
  | kv metricName kvs distinct => exact distinct

theorem eq_of_key {call : LabelArrayCall} {a b : String × String} (ha : a ∈ call.labels)
    (hb : b ∈ call.labels) (h : a.1 = b.1) : a = b :=
  List.inj_on_of_nodup_map call.distinct_keys ha hb h

/-- The query over the sorted labels creates those that are not there. -/
theorem arrayOf_creates (c : Catalog) (name : String) {es : List (String × String)}
    (hnodup : es.Nodup) :
    Ensures (do
      let rows ← es.mapM (idxVal c (some name))
      pure (arrayOf rows)) c fun _ c' =>
      (newLabels c c').filter (fun e => !c.madeWithMetric (some name) e) =
        es.filter (c.isCreated (some name)) := by
  apply Ensures.bind
  refine (idxVals_adds c name hnodup).mono ?_
  rintro rows c' ⟨new, hadded, hnew⟩
  apply Ensures.pure
  rw [hadded.newLabels_eq, hnew]

theorem created_jsonb {js : List (String × String)} (stored : js.Pairwise fun a b =>
    jsonbKeyLt a.1 b.1) (h : (jsonb js stored).statement.run c = .ok (A, c')) :
    (jsonb js stored).created c c' =
      (js.insertionSort fun a b => labelKeyBefore c a b = true).filter
        (c.isCreated (js.lookup nameKey)) := by
  have hnodup : js.Nodup := .of_map _ (jsonb js stored).distinct_keys
  have hperm := List.perm_insertionSort (fun a b => labelKeyBefore c a b = true) js
  cases hname : js.lookup nameKey with
  | none =>
    obtain ⟨rfl, -, rfl⟩ := getOrCreateLabelArray_nameless c hname _ _ h
    simp [created, newLabels]
  | some name =>
    have hcreates : Ensures (getOrCreateLabelArray js) c fun _ c' =>
        (newLabels c c').filter (fun e => !c.madeWithMetric (some name) e) =
          (js.insertionSort fun a b => labelKeyBefore c a b = true).filter
            (c.isCreated (some name)) := by
      unfold getOrCreateLabelArray
      apply Ensures.bind
      apply Ensures.get
      rw [hname]
      exact arrayOf_creates c name (hperm.nodup_iff.mpr hnodup)
    rw [created, metricName, hname]
    exact hcreates _ _ h

theorem created_kv {name : String} {kvs : List (String × String)}
    (distinct : (kvs.map (·.1)).Nodup) (h : (kv name kvs distinct).statement.run c = .ok (A, c')) :
    (kv name kvs distinct).created c c' =
      (kvs.insertionSort fun a b => c.collate a.1 b.1 = true).filter
        (c.isCreated (some name)) := by
  have hperm := List.perm_insertionSort (fun a b => c.collate a.1 b.1 = true) kvs
  have hcreates : Ensures (getOrCreateLabelArrayKv name kvs) c fun _ c' =>
      (newLabels c c').filter (fun e => !c.madeWithMetric (some name) e) =
        (kvs.insertionSort fun a b => c.collate a.1 b.1 = true).filter
          (c.isCreated (some name)) := by
    unfold getOrCreateLabelArrayKv
    apply Ensures.bind
    apply Ensures.get
    exact arrayOf_creates c name (hperm.nodup_iff.mpr (.of_map _ distinct))
  exact hcreates _ _ h

/-- The sorted label set, as far as it is not there. -/
theorem created_eq {call : LabelArrayCall} (h : call.statement.run c = .ok (A, c')) :
    ∃ sorted : List (String × String), sorted.Perm call.labels ∧
      call.created c c' = sorted.filter (c.isCreated call.metricName) ∧
      (IsCollation c.collate → (call.created c c').Pairwise (call.Before c)) := by
  cases call with
  | jsonb js stored =>
    have hsorted := filter_insertionSort_labelKeyBefore c js (c.isCreated (js.lookup nameKey))
      fun e he => Option.isNone_iff_eq_none.mp (Bool.and_eq_true_iff.mp he).1
    refine ⟨_, List.perm_insertionSort _ js, created_jsonb stored h, fun _ => ?_⟩
    rw [created_jsonb stored h, hsorted]
    exact stored.sublist List.filter_sublist
  | kv name kvs distinct =>
    refine ⟨_, List.perm_insertionSort _ kvs, created_kv distinct h, fun hcollate => ?_⟩
    rw [created_kv distinct h]
    exact (pairwise_insertionSort_collate hcollate kvs).sublist List.filter_sublist

theorem mem_created {call : LabelArrayCall} (h : call.statement.run c = .ok (A, c'))
    (e : String × String) : e ∈ call.created c c' ↔ call.Missing c e := by
  obtain ⟨sorted, hperm, hcreated, -⟩ := created_eq h
  rw [hcreated, List.mem_filter, hperm.mem_iff, Missing]

/-- Missing labels are created in the order of their keys. -/
theorem sublist_created_iff {call : LabelArrayCall} (hcollate : IsCollation c.collate)
    (h : call.statement.run c = .ok (A, c')) {a b : String × String} (ha : call.Missing c a)
    (hb : call.Missing c b) (hne : a ≠ b) :
    [a, b].Sublist (call.created c c') ↔ call.Before c a b := by
  obtain ⟨_, -, -, hpairwise⟩ := created_eq h
  have hbefore : ∀ {x y}, [x, y].Sublist (call.created c c') → call.Before c x y :=
    fun hxy => List.pairwise_iff_forall_sublist.mp (hpairwise hcollate) hxy
  refine ⟨hbefore, fun hab => ?_⟩
  refine (pair_sublist ((mem_created h a).mpr ha) ((mem_created h b).mpr hb) hne).resolve_right ?_
  intro hba
  have hba := hbefore hba
  cases call with
  | jsonb js stored => exact jsonbKeyLt_asymm hab hba
  | kv name kvs distinct =>
    exact hne (eq_of_key ha.1 hb.1 (hcollate.antisymm _ _ hab hba))

theorem nodup_created {call : LabelArrayCall} (h : call.statement.run c = .ok (A, c')) :
    (call.created c c').Nodup := by
  obtain ⟨sorted, hperm, hcreated, -⟩ := created_eq h
  rw [hcreated]
  exact (hperm.nodup_iff.mpr (.of_map _ call.distinct_keys)).filter _

end LabelArrayCall

/-! ## Two calls -/

section TwoCalls
variable {c c₁ c₂ : Catalog} {call call' : LabelArrayCall} {A A' : List Nat}

/-- A label that both calls have to create. -/
def Common (c : Catalog) (call call' : LabelArrayCall) (e : String × String) : Prop :=
  call.Missing c e ∧ call'.Missing c e

theorem sameOrder_iff_before (hcollate : IsCollation c.collate)
    (h : call.statement.run c = .ok (A, c₁)) (h' : call'.statement.run c = .ok (A', c₂)) :
    SameOrder (call.created c c₁) (call'.created c c₂) ↔
      ∀ a b, Common c call call' a → Common c call call' b → a ≠ b → call.Before c a b →
        ¬ call'.Before c b a := by
  constructor
  · intro hsame a b ha hb hne hab hba
    exact hsame a b ((LabelArrayCall.sublist_created_iff hcollate h ha.1 hb.1 hne).mpr hab)
      ((LabelArrayCall.sublist_created_iff hcollate h' hb.2 ha.2 hne.symm).mpr hba)
  · intro hbefore a b hab hba
    have hne : a ≠ b := by
      have hpair := (LabelArrayCall.nodup_created h).sublist hab
      simpa using hpair
    have ha : Common c call call' a := ⟨(LabelArrayCall.mem_created h a).mp (hab.subset (by simp)),
      (LabelArrayCall.mem_created h' a).mp (hba.subset (by simp))⟩
    have hb : Common c call call' b := ⟨(LabelArrayCall.mem_created h b).mp (hab.subset (by simp)),
      (LabelArrayCall.mem_created h' b).mp (hba.subset (by simp))⟩
    exact hbefore a b ha hb hne ((LabelArrayCall.sublist_created_iff hcollate h ha.1 hb.1 hne).mp hab)
      ((LabelArrayCall.sublist_created_iff hcollate h' hb.2 ha.2 hne.symm).mp hba)

/-- Whether an object keeps the keys of some labels in the order of the collation. -/
def KeysAgree (c : Catalog) (labels : String × String → Prop) : Prop :=
  ∀ a b, labels a → labels b → jsonbKeyLt a.1 b.1 → c.collate a.1 b.1 = true

/-- The order of an object is opposed by that of the collation exactly where it is another one. -/
theorem keysAgree_iff (hcollate : IsCollation c.collate) {labels : String × String → Prop}
    (hkeys : ∀ a b, labels a → labels b → a.1 = b.1 → a = b) :
    KeysAgree c labels ↔ ∀ a b, labels a → labels b → a ≠ b → jsonbKeyLt a.1 b.1 →
      ¬ c.collate b.1 a.1 = true := by
  constructor
  · intro hagree a b ha hb hne hlt hba
    exact hne (hkeys a b ha hb (hcollate.antisymm _ _ (hagree a b ha hb hlt) hba))
  · intro hopposed a b ha hb hlt
    refine (hcollate.total a.1 b.1).resolve_right (hopposed a b ha hb ?_ hlt)
    rintro rfl
    exact jsonbKeyLt_asymm hlt hlt

theorem sameOrder_iff (hcollate : IsCollation c.collate)
    (h : call.statement.run c = .ok (A, c₁)) (h' : call'.statement.run c = .ok (A', c₂)) :
    SameOrder (call.created c c₁) (call'.created c c₂) ↔
      (call.isJsonb = call'.isJsonb ∨ KeysAgree c (Common c call call')) := by
  rw [sameOrder_iff_before hcollate h h']
  have hkeys : ∀ a b, Common c call call' a → Common c call call' b → a.1 = b.1 → a = b :=
    fun a b ha hb => LabelArrayCall.eq_of_key ha.1.1 hb.1.1
  cases call with
  | jsonb js stored =>
    cases call' with
    | jsonb js' stored' =>
      exact iff_of_true (fun a b _ _ _ hab => jsonbKeyLt_asymm hab) (.inl rfl)
    | kv name kvs distinct =>
      rw [keysAgree_iff hcollate hkeys]
      exact ⟨.inr, fun h => h.resolve_left Bool.noConfusion⟩
  | kv name kvs distinct =>
    cases call' with
    | jsonb js stored =>
      rw [keysAgree_iff hcollate hkeys]
      refine ⟨fun hopposed => .inr fun a b ha hb hne hlt hba => ?_, fun h a b ha hb hne hab hba => ?_⟩
      · exact hopposed b a hb ha hne.symm hba hlt
      · exact h.resolve_left Bool.noConfusion b a hb ha hne.symm hba hab
    | kv name' kvs' distinct' =>
      refine iff_of_true (fun a b ha hb hne hab hba => ?_) (.inl rfl)
      exact hne (hkeys a b ha hb (hcollate.antisymm _ _ hab hba))

/-- Two calls create the labels that both have to create in one order, and then never wait for each
other, exactly when they are calls of one variant or objects keep the keys of these labels in the
order of the collation. -/
theorem labelArrays_sameOrder_iff (hcollate : IsCollation c.collate)
    (h : call.statement.run c = .ok (A, c₁)) (h' : call'.statement.run c = .ok (A', c₂)) :
    (SameOrder (call.created c c₁) (call'.created c c₂) ∧
        ∀ s, Reaches (start (orders (call.created c c₁) (call'.created c c₂))) s →
          ¬ Deadlocked s) ↔
      (call.isJsonb = call'.isJsonb ∨ KeysAgree c (Common c call call')) := by
  rw [← sameOrder_iff hcollate h h']
  exact ⟨And.left, fun hsame => ⟨hsame, fun s => hsame.not_deadlocked⟩⟩

end TwoCalls

/-- A new database, in a collation by code points, in which the metric `cpu` was created. -/
def cpuCreated : Catalog :=
  match (getOrCreateMetricTableName "cpu").run (init (fun a b => decide (a ≤ b)) true 0) with
  | .ok (_, c) => c
  | .error _ => init (fun a b => decide (a ≤ b)) true 0

theorem cpuCreated_isCollation : IsCollation cpuCreated.collate where
  total a b := by
    change decide (a ≤ b) = true ∨ decide (b ≤ a) = true
    simpa using le_total a b
  trans a b c := by
    change decide (a ≤ b) = true → decide (b ≤ c) = true → decide (a ≤ c) = true
    simpa using le_trans
  antisymm a b := by
    change decide (a ≤ b) = true → decide (b ≤ a) = true → a = b
    simpa using le_antisymm

/-- `{"b": "x", "aa": "y", "__name__": "cpu"}` -/
def asObject : LabelArrayCall := .jsonb [("b", "x"), ("aa", "y"), (nameKey, "cpu")] (by decide +kernel)

def asArrays : LabelArrayCall := .kv "cpu" [("b", "x"), ("aa", "y"), (nameKey, "cpu")] (by decide)

def asOtherArrays : LabelArrayCall := .kv "cpu" [(nameKey, "cpu"), ("c", "z"), ("aa", "y"), ("b", "x")]
  (by decide)

theorem labelArrays_sameOrder_arrays : ∃ A c₁ A' c₂,
    asArrays.statement.run cpuCreated = .ok (A, c₁) ∧
    asOtherArrays.statement.run cpuCreated = .ok (A', c₂) ∧
    asArrays.created cpuCreated c₁ = [("aa", "y"), ("b", "x")] ∧
    SameOrder (asArrays.created cpuCreated c₁) (asOtherArrays.created cpuCreated c₂) ∧
    ∀ s, Reaches (start (orders (asArrays.created cpuCreated c₁)
      (asOtherArrays.created cpuCreated c₂))) s → ¬ Deadlocked s := by
  obtain ⟨A, c₁, hrun, hcreated⟩ := @exists_of_leaves _ _ _ asArrays.statement cpuCreated
    (fun _ c => asArrays.created cpuCreated c = [("aa", "y"), ("b", "x")]) (by decide +kernel)
  obtain ⟨A', c₂, hrun', -⟩ := @exists_of_leaves _ _ _ asOtherArrays.statement cpuCreated
    (fun _ _ => true) (by decide +kernel)
  exact ⟨A, c₁, A', c₂, hrun, hrun', of_decide_eq_true hcreated,
    (labelArrays_sameOrder_iff cpuCreated_isCollation hrun hrun').mpr (.inl rfl)⟩

/-- The same label set as an object and as arrays: each call can come to hold the label that the
other one creates next. -/
theorem labelArrays_sameOrder_fails : ∃ A c₁ A' c₂,
    asObject.statement.run cpuCreated = .ok (A, c₁) ∧
    asArrays.statement.run cpuCreated = .ok (A', c₂) ∧
    asObject.created cpuCreated c₁ = [("b", "x"), ("aa", "y")] ∧
    asArrays.created cpuCreated c₂ = [("aa", "y"), ("b", "x")] ∧
    ¬ SameOrder (asObject.created cpuCreated c₁) (asArrays.created cpuCreated c₂) ∧
    ∃ s, Reaches (start (orders (asObject.created cpuCreated c₁)
      (asArrays.created cpuCreated c₂))) s ∧ Deadlocked s := by
  obtain ⟨A, c₁, hrun, hcreated⟩ := @exists_of_leaves _ _ _ asObject.statement cpuCreated
    (fun _ c => asObject.created cpuCreated c = [("b", "x"), ("aa", "y")]) (by decide +kernel)
  obtain ⟨A', c₂, hrun', hcreated'⟩ := @exists_of_leaves _ _ _ asArrays.statement cpuCreated
    (fun _ c => asArrays.created cpuCreated c = [("aa", "y"), ("b", "x")]) (by decide +kernel)
  have hcreated := of_decide_eq_true hcreated
  have hcreated' := of_decide_eq_true hcreated'
  have hdeadlock := @exists_deadlocked _ [("b", "x")] [("aa", "y")] [] [] ("b", "x") ("aa", "y")
    List.mem_cons_self List.mem_cons_self (by decide)
  refine ⟨A, c₁, A', c₂, hrun, hrun', hcreated, hcreated', ?_, ?_⟩
  · rw [hcreated, hcreated']
    exact fun hsame => hsame ("b", "x") ("aa", "y") (List.Sublist.refl _) (List.Sublist.refl _)
  · rw [hcreated, hcreated']
    exact hdeadlock

end Promscale.Catalog
