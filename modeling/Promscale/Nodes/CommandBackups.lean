import Promscale.Nodes.CommandRuns

/-!
# Backups of remote commands

A backup has the commands that are not the extension's, which it tells by their numbers. They are
copied into the table of an extension that has just been created.
-/
namespace Promscale.Nodes

open Promscale.Lib
open Cluster

namespace Cluster

variable {δ : Type} {s s' : Cluster δ}

/-- The commands of the extension are all there and have their own numbers. -/
structure Settled (s : Cluster δ) : Prop where
  sound : s.Sound
  own : ∀ x ∈ managed, ∃ c ∈ s.remoteCommands.rows, c.key = x.1 ∧ c.seq = x.2
  others : ∀ c ∈ s.remoteCommands.rows, c.key ∉ managedKeys → 1000 ≤ c.seq
  next : 1000 ≤ s.nextSeq

theorem settled_arrange (h : s.Sound)
    (hall : ∀ key ∈ managedKeys, ∃ c ∈ s.remoteCommands.rows, c.key = key) :
    s.arrange.Settled where
  sound := h.arrange
  own x hx := by
    obtain ⟨c, hc, hkey⟩ := hall x.1 (List.mem_map_of_mem hx)
    exact ⟨renumbered s.remoteCommands.rows c, List.mem_map_of_mem hc, hkey,
      newSeq_managed hx hkey⟩
  others c hc hkey := by
    obtain ⟨c₀, hc₀, rfl⟩ := List.mem_map.mp hc
    exact thousand_le_newSeq hc₀ hkey
  next := Nat.le_max_left 1000 _

theorem Settled.update (h : s.Settled) {f : RemoteCommand → RemoteCommand}
    (hrows : s'.remoteCommands.rows = s.remoteCommands.rows.map f)
    (hkey : ∀ c, (f c).key = c.key) (hseq : ∀ c, (f c).seq = c.seq)
    (hnext : s.nextSeq ≤ s'.nextSeq) : s'.Settled where
  sound := h.sound.update hrows hseq hnext
  own x hx := by
    obtain ⟨c, hc, hx⟩ := h.own x hx
    rw [hrows]
    exact ⟨f c, List.mem_map_of_mem hc, by rwa [hkey, hseq]⟩
  others c hc hother := by
    rw [hrows] at hc
    obtain ⟨c₀, hc₀, rfl⟩ := List.mem_map.mp hc
    rw [hkey] at hother
    rw [hseq]
    exact h.others c₀ hc₀ hother
  next := h.next.trans hnext

theorem Settled.of_same (h : s.Settled) (hcommands : s'.remoteCommands = s.remoteCommands)
    (hnext : s.nextSeq ≤ s'.nextSeq) : s'.Settled :=
  h.update (f := id) (by rw [hcommands, List.map_id]) (fun _ => rfl) (fun _ => rfl) hnext

theorem Settled.seq_own (h : s.Settled) {c : RemoteCommand} (hc : c ∈ s.remoteCommands.rows)
    {x : String × Nat} (hx : x ∈ managed) (hkey : c.key = x.1) : c.seq = x.2 := by
  obtain ⟨c', hc', hkey', hseq⟩ := h.own x hx
  have heq : c' = c := s.remoteCommands.eq_of_conflict hc' hc (by
    simp [RemoteCommand.constraints, hkey, hkey'])
  rw [← heq, hseq]

theorem Settled.thousand_le_iff (h : s.Settled) {c : RemoteCommand}
    (hc : c ∈ s.remoteCommands.rows) : 1000 ≤ c.seq ↔ c.key ∉ managedKeys := by
  constructor
  · intro hseq hkey
    obtain ⟨x, hx, hkey⟩ := List.mem_map.mp hkey
    have hle := managed_le x hx
    rw [h.seq_own hc hx hkey.symm] at hseq
    omega
  · exact h.others c hc

theorem Settled.upsert (h : s.Settled) {key command : String} {transactional : Bool}
    (hupsert : s.upsert key command transactional = .ok s') : s'.Settled := by
  rcases upsert_cases hupsert with ⟨remoteCommands, hinsert, rfl⟩ | ⟨-, rfl⟩
  · obtain ⟨hfree, hrows⟩ := (Table.insert_eq_some_iff _ _ _ _).mp hinsert
    refine ⟨(upsert_spec h.sound hupsert).1, ?_, ?_, Nat.le_succ_of_le h.next⟩
    · intro x hx
      obtain ⟨c, hc, hx⟩ := h.own x hx
      exact ⟨c, by simp [hrows, hc], hx⟩
    · intro c hc hkey
      simp only [hrows, List.mem_append, List.mem_singleton] at hc
      rcases hc with hc | rfl
      · exact h.others c hc hkey
      · exact h.next
  · exact h.update rfl (fun c => by split <;> rfl) (fun c => by split <;> rfl) (Nat.le_succ _)

theorem Settled.deleteCommand (h : s.Settled) {key : String} (hkey : key ∉ managedKeys) :
    (s.deleteCommand key).Settled where
  sound := (deleteCommand_spec h.sound key).1
  own x hx := by
    obtain ⟨c, hc, hx'⟩ := h.own x hx
    have hne : c.key ≠ key := by
      rintro rfl
      exact hkey (hx'.1 ▸ List.mem_map_of_mem hx)
    exact ⟨c, (Table.mem_delete _ _ _).mpr ⟨hc, by simpa using hne⟩, hx'⟩
  others c hc := h.others c ((Table.mem_delete _ _ _).mp hc).1
  next := h.next

/-! ## The order that a backup goes by -/

theorem Settled.commands_eq (h : s.Settled) : s.commands = s.rearranged := by
  refine orderBy_eq (rearranged_by h.sound ?_ h.others ?_) (perm_rearranged h.sound)
  · intro c hc x hx hkey
    exact h.seq_own hc hx hkey
  · intro a _ b _ _ _ hlt
    exact hlt

/-- The commands of the extension with their numbers. -/
theorem Settled.own_numbers (h : s.Settled) :
    (managed.filterMap fun x => s.remoteCommands.rows.find? fun c => c.key = x.1).map
      (fun c => (c.key, c.seq)) = managed := by
  rw [List.map_filterMap]
  refine Eq.trans (List.filterMap_congr fun x hx => ?_) List.filterMap_some
  obtain ⟨c, hc, hkey, hseq⟩ := h.own x hx
  have hfind : (s.remoteCommands.rows.find? fun c => c.key = x.1) = some c := by
    refine s.remoteCommands.find?_eq_some_of_mem hc (by simpa using hkey) ?_
    intro r hr
    simpa [RemoteCommand.constraints, hkey] using hr
  rw [hfind, Option.map_some, hkey, hseq]

theorem Settled.dump_eq (h : s.Settled) :
    s.dump.1 = s.remoteCommands.rows.filter fun c => c.key ∉ managedKeys := by
  refine List.filter_congr fun c hc => ?_
  rw [decide_eq_decide]
  exact h.thousand_le_iff hc

/-- The dumped commands are loaded where there are those of the extension only. -/
theorem load_dump {t : Cluster δ} (h : s.Settled)
    (honly : ∀ c ∈ t.remoteCommands.rows, c.key ∈ managedKeys) :
    ∃ t', load s.dump t = some t' ∧
      t'.remoteCommands.rows = t.remoteCommands.rows ++ s.dump.1 ∧ t'.nextSeq = s.nextSeq := by
  have hfree : ∀ a ∈ t.remoteCommands.rows, ∀ b ∈ s.dump.1,
      RemoteCommand.constraints.conflict a b = false := by
    intro a ha b hb
    rw [h.dump_eq] at hb
    have hb := (List.mem_filter.mp hb).2
    have hne : a.key ≠ b.key := by
      intro heq
      simp [← heq, honly a ha] at hb
    simpa [RemoteCommand.constraints] using hne
  obtain ⟨remoteCommands, hfold, hrows⟩ := Table.foldlM_insert (fun _ => rfl) hfree
    (s.remoteCommands.unique.sublist List.filter_sublist)
  refine ⟨{ t with remoteCommands, nextSeq := s.nextSeq }, ?_, hrows, rfl⟩
  unfold load
  rw [hfold]
  rfl

theorem load_spec {t t' : Cluster δ} (h : s.Settled) (ht : t.Settled)
    (honly : ∀ c ∈ t.remoteCommands.rows, c.key ∈ managedKeys)
    (hrows : t'.remoteCommands.rows = t.remoteCommands.rows ++ s.dump.1) :
    t'.commands = t.commands ++ s.commands.filter (fun c => c.key ∉ managedKeys) ∧
      t'.commands.map (fun c => (c.key, c.seq)) = s.commands.map (fun c => (c.key, c.seq)) := by
  have hlt : ∀ a ∈ t.remoteCommands.rows, ∀ b ∈ s.dump.1, a.seq < b.seq := by
    intro a ha b hb
    obtain ⟨x, hx, hkey⟩ := List.mem_map.mp (honly a ha)
    have hle := managed_le x hx
    have hge : 1000 ≤ b.seq := by simpa using (List.mem_filter.mp hb).2
    rw [ht.seq_own ha hx hkey.symm]
    omega
  have hdumped : s.dump.1.Pairwise fun a b => a.seq ≠ b.seq := h.sound.distinct.filter _
  have hcommands : t'.commands =
      t.commands ++ s.commands.filter (fun c => c.key ∉ managedKeys) := by
    rw [commands, hrows, orderBy_append ht.sound.distinct hdumped hlt,
      h.dump_eq, orderBy_filter h.sound.distinct]
    rfl
  refine ⟨hcommands, ?_⟩
  have hnone : t.commands.filter (fun c => c.key ∉ managedKeys) = [] := by
    refine List.filter_eq_nil_iff.mpr ?_
    intro c hc
    simpa using honly c (mem_commands.mp hc)
  have hown : t.commands.map (fun c => (c.key, c.seq)) = managed := by
    rw [ht.commands_eq, rearranged, hnone, List.append_nil]
    exact ht.own_numbers
  have hsplit : s.commands.map (fun c => (c.key, c.seq)) = managed ++
      (s.commands.filter fun c => c.key ∉ managedKeys).map (fun c => (c.key, c.seq)) := by
    conv_lhs => rw [h.commands_eq, rearranged]
    rw [List.map_append, h.own_numbers]
  rw [hcommands, List.map_append, hown, hsplit]

end Cluster

section
variable {δ : Type} {execute : String → δ → Except SqlError δ} {s s' : Cluster δ}

theorem step_settled (h : s.Settled) {e : Event} (hstep : Step execute s e s')
    (hkept : ∀ key ∈ managedKeys, .delete key ≠ e) : s'.Settled := by
  cases hstep with
  | executed hexecute =>
    obtain ⟨s₁, accessNode, dataNodes, hupsert, rfl⟩ := executeEverywhere_commands hexecute
    have hsettled : s₁.Settled := h.upsert hupsert
    exact hsettled.of_same rfl (le_refl _)
  | executedOnce hexecute =>
    obtain ⟨s₁, accessNode, dataNodes, hsame, rfl⟩ := executeEverywhere_commands hexecute
    cases hsame
    exact h.of_same rfl (le_refl _)
  | updated key command transactional =>
    exact h.update rfl (fun c => by split <;> rfl) (fun c => by split <;> rfl) (le_refl _)
  | deleted key => exact h.deleteCommand fun hkey => hkept key hkey rfl
  | arranged =>
    refine settled_arrange h.sound ?_
    intro key hkey
    obtain ⟨x, hx, rfl⟩ := List.mem_map.mp hkey
    obtain ⟨c, hc, hkey, -⟩ := h.own x hx
    exact ⟨c, hc, hkey⟩
  | addedNode hadd =>
    obtain ⟨dataNodes, rfl⟩ := addPromNode_commands hadd
    exact h.of_same rfl (le_refl _)
  | failed hnext => exact h.of_same rfl hnext
  | outside => exact h.of_same rfl (le_refl _)

theorem run_settled (h : s.Settled) {trace : List (Event × Cluster δ)}
    (hrun : Run (Step execute) s trace s')
    (hkept : ∀ key ∈ managedKeys, .delete key ∉ trace.map (·.1)) : s'.Settled := by
  induction hrun with
  | nil => exact h
  | snoc _ hstep ih =>
    refine step_settled (ih fun key hkey hmem => hkept key hkey (by simp [hmem])) hstep ?_
    rintro key hkey rfl
    exact hkept key hkey (by simp)

/-- After an install, with all the commands of the extension, and whatever is done then but taking
one of these out, a backup is restored into a new install without a conflict. The commands of
users come back in their order after those of the new install, every key has the number that it
had, and the sequence goes on after them. -/
theorem backups_keep_the_commands {s₀ t₀ t : Cluster δ} {trace more trace' : List (Event × Cluster δ)}
    (hempty : s₀.remoteCommands.rows = []) (hinstall : Run (Step execute) s₀ trace s)
    (hall : ∀ key ∈ managedKeys, ∃ c ∈ s.remoteCommands.rows, c.key = key)
    (hmore : Run (Step execute) s.arrange more s')
    (hkept : ∀ key ∈ managedKeys, .delete key ∉ more.map (·.1))
    (hempty' : t₀.remoteCommands.rows = []) (hinstall' : Run (Step execute) t₀ trace' t)
    (hall' : ∀ key, (∃ c ∈ t.remoteCommands.rows, c.key = key) ↔ key ∈ managedKeys) :
    ∃ t', load s'.dump t.arrange = some t' ∧
      t'.commands =
        t.arrange.commands ++ s'.commands.filter (fun c => c.key ∉ managedKeys) ∧
      t'.commands.map (fun c => (c.key, c.seq)) = s'.commands.map (fun c => (c.key, c.seq)) ∧
      t'.nextSeq = s'.nextSeq ∧ ∀ c ∈ t'.remoteCommands.rows, c.seq < t'.nextSeq := by
  have hsound := (run_entries (sound_of_empty hempty).1 hinstall).1
  have hsettled := run_settled (settled_arrange hsound hall) hmore hkept
  have hsound' := (run_entries (sound_of_empty hempty').1 hinstall').1
  have hfresh := settled_arrange hsound' fun key hkey => (hall' key).mpr hkey
  have honly : ∀ c ∈ t.arrange.remoteCommands.rows, c.key ∈ managedKeys := by
    intro c hc
    obtain ⟨c₀, hc₀, rfl⟩ := List.mem_map.mp hc
    exact (hall' c₀.key).mp ⟨c₀, hc₀, rfl⟩
  obtain ⟨t', hload, hrows, hnext⟩ := load_dump hsettled honly
  obtain ⟨hcommands, hnumbers⟩ := load_spec hsettled hfresh honly hrows
  refine ⟨t', hload, hcommands, hnumbers, hnext, ?_⟩
  intro c hc
  have hmem : (c.key, c.seq) ∈ s'.commands.map fun c => (c.key, c.seq) :=
    hnumbers ▸ List.mem_map_of_mem (mem_commands.mpr hc)
  obtain ⟨c', hc', heq⟩ := List.mem_map.mp hmem
  have hfresh := hsettled.sound.fresh c' (mem_commands.mp hc')
  rw [hnext, ← (Prod.mk.inj heq).2]
  exact hfresh

/-- The order in which an install comes to them. -/
def installed : List Entry :=
  ["create_prom_reader", "create_prom_writer", "create_prom_modifier", "create_prom_admin",
    "create_prom_maintenance", "grant_prom_reader_prom_writer", "grant_all_roles_to_extowner",
    "tracing_types", "_prom_catalog.do_decompress_chunks_after",
    "_prom_catalog.compress_old_chunks"].map fun key => ⟨key, true, ""⟩

def afterInstall : Cluster (List String) :=
  ((executeAll noting installed newCluster).toOption).getD newCluster

def afterUse : Cluster (List String) :=
  ((executeAll noting twoCommands afterInstall.arrange).toOption).getD newCluster

theorem backups_keep_the_commands_twoCommands :
    ∃ t, load afterUse.dump afterInstall.arrange = some t ∧
      t.commands.map (fun c => (c.key, c.seq)) = afterUse.commands.map (fun c => (c.key, c.seq)) ∧
      t.nextSeq = 1003 := by
  obtain ⟨trace, hinstall, -⟩ := run_executeAll
    (show executeAll noting installed newCluster = .ok afterInstall from rfl)
  obtain ⟨more, hmore, hevents⟩ := run_executeAll
    (show executeAll noting twoCommands afterInstall.arrange = .ok afterUse from rfl)
  have hkept : ∀ key ∈ managedKeys, .delete key ∉ more.map (·.1) := by
    rw [hevents]
    decide
  have hkeys : afterInstall.remoteCommands.rows.map (·.key) = installed.map (·.key) := by decide
  have hall : ∀ key, (∃ c ∈ afterInstall.remoteCommands.rows, c.key = key) ↔
      key ∈ managedKeys := by
    intro key
    rw [← List.mem_map, hkeys]
    have hperm : (installed.map (·.key)).Perm managedKeys := by decide
    exact hperm.mem_iff
  obtain ⟨t, hload, -, hnumbers, hnext, -⟩ := backups_keep_the_commands rfl hinstall
    (fun key hkey => (hall key).mpr hkey) hmore hkept rfl hinstall hall
  exact ⟨t, hload, hnumbers, hnext.trans rfl⟩

end

end Promscale.Nodes
