import Promscale.Nodes.RemoteCommands

/-!
# The order of remote commands

Numbers of a sequence stand for a list: a command with a new key comes last in it, and one with a
key that is there takes the place of the one before it.
-/
namespace Promscale.Nodes

open Promscale.Lib

/-- A command in the list. -/
structure Entry where
  key : String
  transactional : Bool
  command : String
  deriving DecidableEq, Repr

def RemoteCommand.entry (c : RemoteCommand) : Entry := ⟨c.key, c.transactional, c.command⟩

/-- The entry in the place of the one with its key. -/
def replaced (e : Entry) (entries : List Entry) : List Entry :=
  entries.map fun e' => if e'.key = e.key then e else e'

def put (e : Entry) (entries : List Entry) : List Entry :=
  if e.key ∈ entries.map (·.key) then replaced e entries else entries ++ [e]

/-- The entries of the extension in their order, the others in that which they had. -/
def arranged (entries : List Entry) : List Entry :=
  (Cluster.managedKeys.filterMap fun key => entries.find? fun e => e.key = key) ++
    entries.filter fun e => e.key ∉ Cluster.managedKeys

namespace Cluster

variable {δ : Type}

def entries (s : Cluster δ) : List Entry := s.commands.map RemoteCommand.entry

/-- The numbers of the commands differ, and the sequence goes on after them. -/
structure Sound (s : Cluster δ) : Prop where
  distinct : s.remoteCommands.rows.Pairwise fun a b => a.seq ≠ b.seq
  fresh : ∀ c ∈ s.remoteCommands.rows, c.seq < s.nextSeq

theorem mem_commands {s : Cluster δ} {c : RemoteCommand} :
    c ∈ s.commands ↔ c ∈ s.remoteCommands.rows := mem_orderBy

theorem keys_entries (s : Cluster δ) : s.entries.map (·.key) = s.commands.map (·.key) := by
  rw [entries, List.map_map]
  rfl

/-- An update of commands that leaves their numbers. -/
theorem commands_update {s s' : Cluster δ} {f : RemoteCommand → RemoteCommand}
    (hrows : s'.remoteCommands.rows = s.remoteCommands.rows.map f)
    (hseq : ∀ c ∈ s.remoteCommands.rows, (f c).seq = c.seq) : s'.commands = s.commands.map f := by
  rw [commands, hrows]
  exact orderBy_map hseq

theorem Sound.update {s s' : Cluster δ} (h : s.Sound) {f : RemoteCommand → RemoteCommand}
    (hrows : s'.remoteCommands.rows = s.remoteCommands.rows.map f)
    (hseq : ∀ c, (f c).seq = c.seq) (hnext : s.nextSeq ≤ s'.nextSeq) : s'.Sound where
  distinct := by
    rw [hrows, List.pairwise_map]
    exact h.distinct.imp fun hne => by rwa [hseq, hseq]
  fresh c hc := by
    rw [hrows] at hc
    obtain ⟨c₀, hc₀, rfl⟩ := List.mem_map.mp hc
    rw [hseq]
    exact Nat.lt_of_lt_of_le (h.fresh c₀ hc₀) hnext

theorem replaced_entries (key command : String) (transactional : Bool)
    (commands : List RemoteCommand) :
    (commands.map fun c => if c.key = key then { c with command, transactional } else c).map
        RemoteCommand.entry =
      replaced ⟨key, transactional, command⟩ (commands.map RemoteCommand.entry) := by
  rw [replaced, List.map_map, List.map_map]
  refine List.map_congr_left fun c _ => ?_
  simp only [Function.comp_apply]
  by_cases hkey : c.key = key
  · rw [if_pos hkey, if_pos (show c.entry.key = key from hkey), RemoteCommand.entry, hkey]
  · rw [if_neg hkey, if_neg (show ¬ c.entry.key = key from hkey)]

/-- What the upsert does to the table. -/
theorem upsert_cases {s s' : Cluster δ} {key command : String} {transactional : Bool}
    (h : s.upsert key command transactional = .ok s') :
    (∃ remoteCommands, s.remoteCommands.insert ⟨key, s.nextSeq, transactional, command⟩ rfl =
        some remoteCommands ∧ s' = { s with remoteCommands, nextSeq := s.nextSeq + 1 }) ∨
      (∃ c ∈ s.remoteCommands.rows, c.key = key) ∧
        s' = { s.updateExecuteEverywhereEntry key command transactional with
          nextSeq := s.nextSeq + 1 } := by
  unfold upsert at h
  split at h
  · cases h
  · split at h
    · rename_i remoteCommands hinsert
      cases h
      exact .inl ⟨remoteCommands, hinsert, rfl⟩
    · rename_i hinsert
      obtain ⟨c, hc, hconflict⟩ := (Table.insert_eq_none_iff _ _ _).mp hinsert
      cases h
      exact .inr ⟨⟨c, hc, by simpa [RemoteCommand.constraints] using hconflict⟩, rfl⟩

theorem entries_updateEntry (s : Cluster δ) (key command : String) (transactional : Bool) :
    (s.updateExecuteEverywhereEntry key command transactional).entries =
      replaced ⟨key, transactional, command⟩ s.entries := by
  have hcommands : (s.updateExecuteEverywhereEntry key command transactional).commands =
      s.commands.map fun c => if c.key = key then { c with command, transactional } else c :=
    commands_update rfl fun c _ => by split <;> rfl
  rw [entries, hcommands, replaced_entries]
  rfl

theorem Sound.updateEntry {s : Cluster δ} (h : s.Sound) (key command : String)
    (transactional : Bool) : (s.updateExecuteEverywhereEntry key command transactional).Sound :=
  h.update rfl (fun c => by split <;> rfl) (le_refl _)

theorem key_mem_entries {s : Cluster δ} {key : String} :
    key ∈ s.entries.map (·.key) ↔ ∃ c ∈ s.remoteCommands.rows, c.key = key := by
  rw [keys_entries, List.mem_map]
  simp only [mem_commands]

theorem upsert_spec {s s' : Cluster δ} (h : s.Sound) {key command : String} {transactional : Bool}
    (hupsert : s.upsert key command transactional = .ok s') :
    s'.Sound ∧ s'.entries = put ⟨key, transactional, command⟩ s.entries := by
  rcases upsert_cases hupsert with ⟨remoteCommands, hinsert, rfl⟩ | ⟨hkey, rfl⟩
  · obtain ⟨hfree, hrows⟩ := (Table.insert_eq_some_iff _ _ _ _).mp hinsert
    have hnew : key ∉ s.entries.map (·.key) := by
      rw [key_mem_entries]
      rintro ⟨c, hc, hkey⟩
      have := hfree c hc
      simp [RemoteCommand.constraints, hkey] at this
    constructor
    · constructor
      · simp only [hrows]
        refine List.pairwise_append.mpr ⟨h.distinct, List.pairwise_singleton _ _, ?_⟩
        intro a ha b hb
        rw [List.mem_singleton.mp hb]
        exact Nat.ne_of_lt (h.fresh a ha)
      · intro c hc
        simp only [hrows] at hc
        rcases List.mem_append.mp hc with hc | hc
        · exact Nat.lt_succ_of_lt (h.fresh c hc)
        · rw [List.mem_singleton.mp hc]
          exact Nat.lt_succ_self _
    · rw [put, if_neg hnew, entries, commands]
      simp only [hrows]
      rw [orderBy_concat h.distinct h.fresh, List.map_append]
      rfl
  · have hold : key ∈ s.entries.map (·.key) := key_mem_entries.mpr hkey
    constructor
    · exact ⟨(h.updateEntry key command transactional).distinct,
        fun c hc => Nat.lt_succ_of_lt ((h.updateEntry key command transactional).fresh c hc)⟩
    · rw [put, if_pos hold]
      exact entries_updateEntry s key command transactional

theorem deleteCommand_spec {s : Cluster δ} (h : s.Sound) (key : String) :
    (s.deleteCommand key).Sound ∧
      (s.deleteCommand key).entries = s.entries.filter fun e => e.key ≠ key := by
  constructor
  · refine ⟨h.distinct.sublist List.filter_sublist, ?_⟩
    intro c hc
    exact h.fresh c ((Table.mem_delete _ _ _).mp hc).1
  · have hcommands : (s.deleteCommand key).commands = s.commands.filter fun c => !decide (c.key = key) :=
      orderBy_filter h.distinct _
    rw [entries, hcommands, entries, List.filter_map]
    refine congrArg _ (List.filter_congr fun c _ => ?_)
    by_cases hkey : c.key = key <;> simp [RemoteCommand.entry, hkey]

/-! ## Putting the order right -/

theorem managed_lookup : ∀ x ∈ managed, managed.lookup x.1 = some x.2 := by decide

theorem managed_ordered : managed.Pairwise fun x y => x.2 < y.2 := by decide

theorem managed_le : ∀ x ∈ managed, x.2 ≤ 10 := by decide

theorem newSeq_managed {rows : List RemoteCommand} {c : RemoteCommand} {x : String × Nat}
    (hx : x ∈ managed) (hkey : c.key = x.1) : newSeq rows c = x.2 := by
  rw [newSeq, hkey, managed_lookup x hx]

theorem lookup_eq_none {key : String} (h : key ∉ managedKeys) : managed.lookup key = none := by
  rw [List.lookup_eq_none_iff]
  intro x hx
  simp only [bne_iff_ne, ne_eq]
  rintro rfl
  exact h (List.mem_map_of_mem hx)

/-- The number of a command that is not one of the extension. -/
theorem newSeq_other (t : Table RemoteCommand RemoteCommand.constraints) {c : RemoteCommand}
    (hc : c ∈ t.rows) (hkey : c.key ∉ managedKeys) :
    ∃ n, (c, n) ∈ rowNumbers (fun a b : RemoteCommand => a.seq ≤ b.seq)
        (t.rows.filter fun c => c.key ∉ managedKeys) ∧ newSeq t.rows c = 999 + n ∧ 1 ≤ n := by
  have hother : c ∈ t.rows.filter fun c => c.key ∉ managedKeys :=
    List.mem_filter.mpr ⟨hc, by simpa using hkey⟩
  have hsome : ((otherNumbers t.rows).find? fun x => x.1.key = c.key).isSome = true := by
    obtain ⟨n, hn⟩ := exists_rowNumber (r := fun a b : RemoteCommand => a.seq ≤ b.seq) hother
    exact List.find?_isSome.mpr ⟨(c, 999 + n), List.mem_map.mpr ⟨(c, n), hn, rfl⟩, by simp⟩
  obtain ⟨x, hx⟩ := Option.isSome_iff_exists.mp hsome
  obtain ⟨⟨c', n⟩, hn, rfl⟩ := List.mem_map.mp (List.mem_of_find?_eq_some hx)
  have hfound := List.find?_some hx
  obtain ⟨hc', hpos⟩ := rowNumber_pos hn
  have heq : c' = c := t.eq_of_conflict (List.mem_filter.mp hc').1 hc (by
    simpa [RemoteCommand.constraints] using hfound)
  subst heq
  refine ⟨n, hn, ?_, hpos⟩
  simp only [newSeq, lookup_eq_none hkey, hx]

variable {s : Cluster δ}

/-- The commands in their new order. -/
def rearranged (s : Cluster δ) : List RemoteCommand :=
  (managed.filterMap fun x => s.remoteCommands.rows.find? fun c => c.key = x.1) ++
    s.commands.filter fun c => c.key ∉ managedKeys

theorem mem_found {x : String × Nat} {c : RemoteCommand}
    (h : (s.remoteCommands.rows.find? fun c => c.key = x.1) = some c) :
    c ∈ s.remoteCommands.rows ∧ c.key = x.1 :=
  ⟨List.mem_of_find?_eq_some h, by simpa using List.find?_some h⟩

/-- Numbers that put the commands of the extension first, and leave the others in their order. -/
theorem rearranged_by (h : s.Sound) {number : RemoteCommand → Nat}
    (hmanaged : ∀ c ∈ s.remoteCommands.rows, ∀ x ∈ managed, c.key = x.1 → number c = x.2)
    (hother : ∀ c ∈ s.remoteCommands.rows, c.key ∉ managedKeys → 1000 ≤ number c)
    (hlt : ∀ a ∈ s.remoteCommands.rows, ∀ b ∈ s.remoteCommands.rows, a.key ∉ managedKeys →
      b.key ∉ managedKeys → a.seq < b.seq → number a < number b) :
    s.rearranged.Pairwise fun a b => number a < number b := by
  refine List.pairwise_append.mpr ⟨?_, ?_, ?_⟩
  · refine List.pairwise_filterMap.mpr (managed_ordered.imp_of_mem ?_)
    intro x y hx hy hlt a ha b hb
    obtain ⟨ha, hkey⟩ := mem_found ha
    obtain ⟨hb, hkey'⟩ := mem_found hb
    rw [hmanaged a ha x hx hkey, hmanaged b hb y hy hkey']
    exact hlt
  · refine ((orderBy_strict h.distinct).filter _).imp_of_mem ?_
    intro a b ha hb hseq
    obtain ⟨ha, hkey⟩ := List.mem_filter.mp ha
    obtain ⟨hb, hkey'⟩ := List.mem_filter.mp hb
    exact hlt a (mem_commands.mp ha) b (mem_commands.mp hb) (by simpa using hkey)
      (by simpa using hkey') hseq
  · intro a ha b hb
    obtain ⟨x, hx, ha⟩ := List.mem_filterMap.mp ha
    obtain ⟨ha, hkey⟩ := mem_found ha
    obtain ⟨hb, hkey'⟩ := List.mem_filter.mp hb
    have hle := managed_le x hx
    have hge := hother b (mem_commands.mp hb) (by simpa using hkey')
    rw [hmanaged a ha x hx hkey]
    omega

theorem thousand_le_newSeq {c : RemoteCommand} (hc : c ∈ s.remoteCommands.rows)
    (hkey : c.key ∉ managedKeys) : 1000 ≤ newSeq s.remoteCommands.rows c := by
  obtain ⟨n, -, hnew, hpos⟩ := newSeq_other s.remoteCommands hc hkey
  omega

theorem rearranged_ordered (h : s.Sound) :
    s.rearranged.Pairwise fun a b =>
      newSeq s.remoteCommands.rows a < newSeq s.remoteCommands.rows b := by
  refine rearranged_by h (fun c _ x hx hkey => newSeq_managed hx hkey)
    (fun c hc hkey => thousand_le_newSeq hc hkey) ?_
  intro a ha b hb hkey hkey' hlt
  obtain ⟨n, hn, hnew, -⟩ := newSeq_other s.remoteCommands ha hkey
  obtain ⟨m, hm, hnew', -⟩ := newSeq_other s.remoteCommands hb hkey'
  have hlt := rowNumber_lt (h.distinct.filter _) hn hm hlt
  omega

theorem perm_rearranged (h : s.Sound) : s.rearranged.Perm s.remoteCommands.rows := by
  have hnodup : s.rearranged.Nodup := (rearranged_ordered h).imp fun hlt heq => by
    rw [heq] at hlt
    exact lt_irrefl _ hlt
  have hrows : s.remoteCommands.rows.Nodup :=
    h.distinct.imp fun hne heq => hne (congrArg RemoteCommand.seq heq)
  refine (List.perm_ext_iff_of_nodup hnodup hrows).mpr ?_
  intro c
  rw [rearranged, List.mem_append, List.mem_filterMap, List.mem_filter, mem_commands]
  constructor
  · rintro (⟨x, -, hx⟩ | ⟨hc, -⟩)
    · exact (mem_found hx).1
    · exact hc
  · intro hc
    by_cases hkey : c.key ∈ managedKeys
    · obtain ⟨x, hx, hxkey⟩ := List.mem_map.mp hkey
      refine .inl ⟨x, hx, s.remoteCommands.find?_eq_some_of_mem hc (by simp [hxkey]) ?_⟩
      intro r hr
      simpa [RemoteCommand.constraints, hxkey] using hr
    · exact .inr ⟨hc, by simpa using hkey⟩

/-- What `999-last.sql` does to one command. -/
def renumbered (rows : List RemoteCommand) (c : RemoteCommand) : RemoteCommand :=
  { c with seq := newSeq rows c }

theorem commands_arrange (h : s.Sound) :
    s.arrange.commands = s.rearranged.map (renumbered s.remoteCommands.rows) := by
  have hrows : s.arrange.remoteCommands.rows =
      s.remoteCommands.rows.map (renumbered s.remoteCommands.rows) := rfl
  have hnumbers : ∀ c ∈ s.remoteCommands.rows,
      (renumbered s.remoteCommands.rows c).seq = newSeq s.remoteCommands.rows c := fun _ _ => rfl
  rw [commands, hrows, orderBy_map hnumbers,
    orderBy_eq (rearranged_ordered h) (perm_rearranged h)]

/-- A command is found by its key among those in order. -/
theorem find?_entries (s : Cluster δ) (key : String) :
    (s.entries.find? fun e => e.key = key) =
      (s.remoteCommands.rows.find? fun c => c.key = key).map RemoteCommand.entry := by
  have hcommands : (s.commands.find? fun c => c.key = key) =
      s.remoteCommands.rows.find? fun c => c.key = key := by
    cases hfind : s.commands.find? fun c => c.key = key with
    | none =>
      rw [List.find?_eq_none] at hfind
      exact (List.find?_eq_none.mpr fun c hc => hfind c (mem_commands.mpr hc)).symm
    | some c =>
      have hc := mem_commands.mp (List.mem_of_find?_eq_some hfind)
      have hkey : c.key = key := by simpa using List.find?_some hfind
      refine (s.remoteCommands.find?_eq_some_of_mem hc (by simpa using hkey) ?_).symm
      intro r hr
      simpa [RemoteCommand.constraints, hkey] using hr
  rw [entries, List.find?_map, ← hcommands]
  rfl

theorem entries_arrange (h : s.Sound) : s.arrange.entries = arranged s.entries := by
  have hentry : ∀ c, (renumbered s.remoteCommands.rows c).entry = c.entry := fun _ => rfl
  have hmanaged : (managed.filterMap fun x => s.remoteCommands.rows.find? fun c => c.key = x.1).map
      RemoteCommand.entry = managedKeys.filterMap fun key => s.entries.find? fun e => e.key = key := by
    rw [List.map_filterMap, managedKeys, List.filterMap_map]
    refine List.filterMap_congr fun x _ => ?_
    rw [Function.comp_apply, find?_entries]
  have hothers : (s.commands.filter fun c => c.key ∉ managedKeys).map RemoteCommand.entry =
      s.entries.filter fun e => e.key ∉ managedKeys := by
    rw [entries, List.filter_map]
    rfl
  rw [entries, commands_arrange h, List.map_map, rearranged, List.map_append]
  simp only [Function.comp_def, hentry]
  rw [arranged, ← hmanaged, ← hothers]

theorem Sound.arrange (h : s.Sound) : s.arrange.Sound where
  distinct := by
    have hlt := (rearranged_ordered h).imp Nat.ne_of_lt
    have hrows := (perm_rearranged h).pairwise hlt fun hne => hne.symm
    exact List.pairwise_map.mpr hrows
  fresh c hc := by
    obtain ⟨m, hm⟩ : ∃ m, (s.arrange.remoteCommands.rows.map (·.seq)).max? = some m :=
      Option.isSome_iff_exists.mp (List.isSome_max?_of_mem (List.mem_map_of_mem hc))
    have hle : c.seq ≤ m := (List.max?_eq_some_iff.mp hm).2 _ (List.mem_map_of_mem hc)
    have hnext : s.arrange.nextSeq = max 1000 (m + 1) := by
      change max 1000 (((s.arrange.remoteCommands.rows.map (·.seq)).max?.map (· + 1)).getD 0) = _
      rw [hm]
      rfl
    omega

end Cluster

end Promscale.Nodes
