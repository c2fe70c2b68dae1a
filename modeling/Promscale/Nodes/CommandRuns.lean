import Promscale.Lib.Fallible
import Promscale.Lib.Run
import Promscale.Nodes.CommandOrder

/-!
# Runs with remote commands

Commands are executed everywhere, changed and taken out, versions are installed, nodes come and
go. The table stays what a list of commands would be, and a new node gets that list.
-/
namespace Promscale.Nodes

open Promscale.Lib
open Cluster

inductive Event where
  | put (e : Entry)
  | edit (e : Entry)
  | delete (key : String)
  | arrange
  | other
  deriving DecidableEq, Repr

/-- What becomes of a list of commands. -/
def Event.apply (entries : List Entry) : Event → List Entry
  | put e => Nodes.put e entries
  | edit e => replaced e entries
  | delete key => entries.filter fun e => e.key ≠ key
  | arrange => arranged entries
  | other => entries

section
variable {δ : Type} (execute : String → δ → Except SqlError δ)

inductive Step (s : Cluster δ) : Event → Cluster δ → Prop
  | executed {key command : String} {transactional : Bool} {s' : Cluster δ}
      (h : executeEverywhere execute (some key) command transactional s = .ok s') :
      Step s (.put ⟨key, transactional, command⟩) s'
  | executedOnce {command : String} {transactional : Bool} {s' : Cluster δ}
      (h : executeEverywhere execute none command transactional s = .ok s') : Step s .other s'
  | updated (key command : String) (transactional : Bool) :
      Step s (.edit ⟨key, transactional, command⟩)
        (s.updateExecuteEverywhereEntry key command transactional)
  | deleted (key : String) : Step s (.delete key) (s.deleteCommand key)
  | arranged : Step s .arrange s.arrange
  | addedNode {nodeName : String} {s' : Cluster δ}
      (h : s.addPromNode execute nodeName = .ok s') : Step s .other s'
  /-- A sequence does not go back when a transaction fails. -/
  | failed {nextSeq : Nat} (h : s.nextSeq ≤ nextSeq) : Step s .other { s with nextSeq }
  | outside (restoreInProgress : Bool) (distribution : Distribution) (accessNode : δ)
      (dataNodes : List (String × δ)) :
      Step s .other { s with restoreInProgress, distribution, accessNode, dataNodes }

variable {execute}

/-- Executing a command leaves the table as it was kept. -/
theorem executeEverywhere_commands {commandKey : Option String} {command : String}
    {transactional : Bool} {s s' : Cluster δ}
    (h : executeEverywhere execute commandKey command transactional s = .ok s') :
    ∃ s₁ accessNode dataNodes, s.keep commandKey command transactional = .ok s₁ ∧
      s' = { s₁ with accessNode, dataNodes } := by
  unfold executeEverywhere at h
  obtain ⟨s₁, hkeep, h⟩ := bind_eq_ok h
  obtain ⟨accessNode, -, h⟩ := bind_eq_ok h
  refine ⟨s₁, accessNode, ?_⟩
  dsimp only at h
  split at h
  · cases h
    exact ⟨s₁.dataNodes, hkeep, rfl⟩
  · split at h
    · rename_i dataNodes _
      cases h
      exact ⟨dataNodes, hkeep, rfl⟩
    · cases h
      exact ⟨s₁.dataNodes, hkeep, rfl⟩
    · cases h
      exact ⟨s₁.dataNodes, hkeep, rfl⟩
    · cases h

theorem addPromNode_commands {nodeName : String} {s s' : Cluster δ}
    (h : s.addPromNode execute nodeName = .ok s') : ∃ dataNodes, s' = { s with dataNodes } := by
  unfold addPromNode at h
  split at h
  · cases h
  · cases h
  · obtain ⟨dataNodes, -, h⟩ := bind_eq_ok h
    cases h
    exact ⟨dataNodes, rfl⟩

/-- The table is the same, and the sequence has not gone back. -/
theorem Cluster.Sound.of_same {s s' : Cluster δ} (h : s.Sound)
    (hcommands : s'.remoteCommands = s.remoteCommands) (hnext : s.nextSeq ≤ s'.nextSeq) :
    s'.Sound ∧ s'.entries = s.entries := by
  refine ⟨⟨hcommands ▸ h.distinct, ?_⟩, by rw [entries, commands, hcommands]; rfl⟩
  intro c hc
  rw [hcommands] at hc
  exact Nat.lt_of_lt_of_le (h.fresh c hc) hnext

theorem step_entries {s s' : Cluster δ} {e : Event} (h : s.Sound) (hstep : Step execute s e s') :
    s'.Sound ∧ s'.entries = e.apply s.entries := by
  cases hstep with
  | executed hexecute =>
    obtain ⟨s₁, accessNode, dataNodes, hupsert, rfl⟩ := executeEverywhere_commands hexecute
    obtain ⟨hsound, hentries⟩ := upsert_spec h hupsert
    have hsame : ({ s₁ with accessNode, dataNodes } : Cluster δ).remoteCommands =
        s₁.remoteCommands := rfl
    obtain ⟨hsound', hentries'⟩ := hsound.of_same hsame (le_refl _)
    exact ⟨hsound', hentries'.trans hentries⟩
  | executedOnce hexecute =>
    obtain ⟨s₁, accessNode, dataNodes, hsame, rfl⟩ := executeEverywhere_commands hexecute
    cases hsame
    exact h.of_same rfl (le_refl _)
  | updated key command transactional =>
    exact ⟨h.updateEntry key command transactional, entries_updateEntry s key command transactional⟩
  | deleted key => exact deleteCommand_spec h key
  | arranged => exact ⟨h.arrange, entries_arrange h⟩
  | addedNode hadd =>
    obtain ⟨dataNodes, rfl⟩ := addPromNode_commands hadd
    exact h.of_same rfl (le_refl _)
  | failed hnext => exact h.of_same rfl hnext
  | outside => exact h.of_same rfl (le_refl _)

theorem run_entries {s s' : Cluster δ} {trace : List (Event × Cluster δ)} (h : s.Sound)
    (hrun : Run (Step execute) s trace s') :
    s'.Sound ∧ s'.entries = (trace.map (·.1)).foldl Event.apply s.entries := by
  induction hrun with
  | nil => exact ⟨h, rfl⟩
  | snoc _ hstep ih =>
    obtain ⟨hsound, hentries⟩ := step_entries ih.1 hstep
    refine ⟨hsound, ?_⟩
    rw [hentries, ih.2, List.map_append, List.foldl_append]
    rfl

variable (execute) in
/-- Commands with keys, one after another. -/
def executeAll (entries : List Entry) (s : Cluster δ) : Except SqlError (Cluster δ) :=
  entries.foldlM (fun s e => s.executeEverywhere execute (some e.key) e.command e.transactional) s

theorem run_executeAll {entries : List Entry} {s s' : Cluster δ}
    (h : executeAll execute entries s = .ok s') :
    ∃ trace, Run (Step execute) s trace s' ∧ trace.map (·.1) = entries.map .put := by
  induction entries generalizing s with
  | nil =>
    cases h
    exact ⟨[], .nil, rfl⟩
  | cons e entries ih =>
    rw [executeAll, List.foldlM_cons] at h
    obtain ⟨s₁, hexecute, h⟩ := bind_eq_ok h
    obtain ⟨trace, hrun, htrace⟩ := ih h
    refine ⟨[(.put e, s₁)] ++ trace, ?_, by simp [htrace]⟩
    exact (Run.nil.snoc (Step.executed hexecute)).append (fun _ _ _ h => h) hrun

/-! ## New nodes -/

theorem sound_of_empty {s : Cluster δ} (h : s.remoteCommands.rows = []) :
    s.Sound ∧ s.entries = [] := by
  refine ⟨⟨by simp [h], by simp [h]⟩, ?_⟩
  rw [entries, commands, h]
  rfl

variable {s₀ s : Cluster δ} {trace : List (Event × Cluster δ)}

/-- A node that is added gets the commands of the list in its order, each key once with the text it
had last, and the other nodes nothing. -/
theorem new_nodes_get_the_list (hempty : s₀.remoteCommands.rows = [])
    (hrun : Run (Step execute) s₀ trace s) {nodeName : String} {s' : Cluster δ}
    (hadd : s.addPromNode execute nodeName = .ok s') :
    List.Forall₂ (fun node node' => node'.1 = node.1 ∧
        if node.1 = nodeName then
          ((trace.map (·.1)).foldl Event.apply []).foldlM (fun d e => execute e.command d) node.2 =
            .ok node'.2
        else node'.2 = node.2) s.dataNodes s'.dataNodes := by
  obtain ⟨hsound, hstart⟩ := sound_of_empty hempty
  have hentries := (run_entries hsound hrun).2
  rw [hstart] at hentries
  have hcommands : ∀ d, s.commands.foldlM (fun d c => execute c.command d) d =
      ((trace.map (·.1)).foldl Event.apply []).foldlM (fun d e => execute e.command d) d := by
    intro d
    rw [← hentries, entries, List.foldlM_map]
    rfl
  unfold addPromNode at hadd
  split at hadd
  · cases hadd
  · cases hadd
  · obtain ⟨dataNodes, hnodes, hadd⟩ := bind_eq_ok hadd
    cases hadd
    refine (mapM_eq_ok hnodes).imp ?_
    intro node node' hnode
    split at hnode
    · rename_i hname
      obtain ⟨d, hd, hnode⟩ := bind_eq_ok hnode
      cases hnode
      rw [hcommands] at hd
      exact ⟨rfl, by rwa [if_pos hname]⟩
    · rename_i hname
      cases hnode
      exact ⟨rfl, by rw [if_neg hname]⟩

/-- A node that notes the commands that it has executed. -/
def noting (command : String) (executed : List String) : Except SqlError (List String) :=
  .ok (executed ++ [command])

def newCluster : Cluster (List String) := ⟨.empty, 1, false, .accessNode, [], []⟩

/-- The second command is changed before the node comes. -/
def twoCommands : List Entry :=
  [⟨"users", true, "u"⟩, ⟨"types", true, "t"⟩, ⟨"users", false, "v"⟩]

def afterTwoCommands : Cluster (List String) :=
  ((executeAll noting twoCommands newCluster).toOption).getD newCluster

def withNode : Cluster (List String) := { afterTwoCommands with dataNodes := [("data", [])] }

theorem new_nodes_get_the_list_twoCommands :
    withNode.addPromNode noting "data" =
        .ok { withNode with dataNodes := [("data", ["v", "t"])] } ∧
      ∃ trace, Run (Step noting) newCluster trace withNode ∧
        ((trace.map (·.1)).foldl Event.apply []).foldlM (fun d e => noting e.command d) [] =
          .ok ["v", "t"] := by
  have hadd : withNode.addPromNode noting "data" =
      .ok { withNode with dataNodes := [("data", ["v", "t"])] } := rfl
  obtain ⟨trace, hrun, -⟩ := run_executeAll
    (show executeAll noting twoCommands newCluster = .ok afterTwoCommands from rfl)
  have hrun := hrun.snoc (Step.outside false .accessNode ["u", "t", "v"] [("data", [])])
  have hnodes := new_nodes_get_the_list rfl hrun hadd
  exact ⟨hadd, _, hrun, by simpa using (List.forall₂_cons.mp hnodes).1.2⟩

/-! ## Commands of users -/

theorem keys_replaced (e : Entry) (entries : List Entry) :
    (replaced e entries).map (·.key) = entries.map (·.key) := by
  rw [replaced, List.map_map]
  refine List.map_congr_left fun e' _ => ?_
  simp only [Function.comp_apply]
  split
  · rename_i hkey
    exact hkey.symm
  · rfl

/-- No event but their deletion changes the places of two keys. -/
theorem apply_keeps {k k' : String} (hk : k ∉ managedKeys) (hk' : k' ∉ managedKeys)
    {entries : List Entry} (h : [k, k'].Sublist (entries.map (·.key))) {e : Event}
    (hne : e ≠ .delete k) (hne' : e ≠ .delete k') :
    [k, k'].Sublist ((e.apply entries).map (·.key)) := by
  cases e with
  | put e =>
    simp only [Event.apply, put]
    split
    · rwa [keys_replaced]
    · rw [List.map_append]
      exact h.trans (List.sublist_append_left _ _)
  | edit e =>
    simp only [Event.apply]
    rwa [keys_replaced]
  | delete key =>
    have hfilter := h.filter (fun k => decide (k ≠ key))
    have hkeep : [k, k'].filter (fun k => decide (k ≠ key)) = [k, k'] := by
      refine List.filter_eq_self.mpr ?_
      intro x hx
      rcases List.mem_cons.mp hx with rfl | hx
      · simpa using fun heq => hne (congrArg Event.delete heq.symm)
      · rw [List.mem_singleton.mp hx]
        simpa using fun heq => hne' (congrArg Event.delete heq.symm)
    rw [hkeep] at hfilter
    simp only [Event.apply]
    rw [List.filter_map] at hfilter
    exact hfilter
  | arrange =>
    have hfilter := h.filter (fun k => decide (k ∉ managedKeys))
    have hkeep : [k, k'].filter (fun k => decide (k ∉ managedKeys)) = [k, k'] := by
      simp [hk, hk']
    rw [hkeep, List.filter_map] at hfilter
    simp only [Event.apply, arranged, List.map_append]
    exact hfilter.trans (List.sublist_append_right _ _)
  | other => exact h

theorem run_keeps {k k' : String} (hk : k ∉ managedKeys) (hk' : k' ∉ managedKeys)
    {events : List Event} (hne : .delete k ∉ events) (hne' : .delete k' ∉ events)
    {entries : List Entry} (h : [k, k'].Sublist (entries.map (·.key))) :
    [k, k'].Sublist ((events.foldl Event.apply entries).map (·.key)) := by
  induction events generalizing entries with
  | nil => exact h
  | cons e events ih =>
    obtain ⟨hne, hrest⟩ := List.ne_and_not_mem_of_not_mem_cons hne
    obtain ⟨hne', hrest'⟩ := List.ne_and_not_mem_of_not_mem_cons hne'
    exact ih hrest hrest' (apply_keeps hk hk' h hne.symm hne'.symm)

/-- Keys come one after the other when their numbers do. -/
theorem pair_sublist_entries (h : s.Sound) {k k' : String} :
    [k, k'].Sublist (s.entries.map (·.key)) ↔
      ∃ c ∈ s.remoteCommands.rows, ∃ c' ∈ s.remoteCommands.rows,
        c.key = k ∧ c'.key = k' ∧ c.seq < c'.seq := by
  rw [keys_entries]
  constructor
  · intro hsublist
    obtain ⟨pair, hpair, hkeys⟩ := List.sublist_map_iff.mp hsublist
    obtain ⟨c, rest, rfl, rfl, hrest⟩ := List.map_eq_cons_iff.mp hkeys.symm
    obtain ⟨c', last, rfl, rfl, hlast⟩ := List.map_eq_cons_iff.mp hrest
    cases List.map_eq_nil_iff.mp hlast
    obtain ⟨hc, hc', hlt⟩ := (pair_sublist_orderBy h.distinct).mp hpair
    exact ⟨c, hc, c', hc', rfl, rfl, hlt⟩
  · rintro ⟨c, hc, c', hc', rfl, rfl, hlt⟩
    exact ((pair_sublist_orderBy h.distinct).mpr ⟨hc, hc', hlt⟩).map RemoteCommand.key

/-- Whatever is installed and executed, two commands that are not the extension's keep the order
they have. -/
theorem other_commands_keep_their_order (hempty : s₀.remoteCommands.rows = [])
    (hrun : Run (Step execute) s₀ trace s) {c c' : RemoteCommand}
    (hc : c ∈ s.remoteCommands.rows) (hc' : c' ∈ s.remoteCommands.rows)
    (hkey : c.key ∉ managedKeys) (hkey' : c'.key ∉ managedKeys) (hlt : c.seq < c'.seq)
    {more : List (Event × Cluster δ)} {s' : Cluster δ} (hmore : Run (Step execute) s more s')
    (hkept : .delete c.key ∉ more.map (·.1)) (hkept' : .delete c'.key ∉ more.map (·.1)) :
    ∃ d ∈ s'.remoteCommands.rows, ∃ d' ∈ s'.remoteCommands.rows,
      d.key = c.key ∧ d'.key = c'.key ∧ d.seq < d'.seq := by
  have hsound := (run_entries (sound_of_empty hempty).1 hrun).1
  obtain ⟨hsound', hentries⟩ := run_entries hsound hmore
  have hbefore := (pair_sublist_entries hsound).mpr ⟨c, hc, c', hc', rfl, rfl, hlt⟩
  have hafter := run_keeps hkey hkey' hkept hkept' hbefore
  rw [← hentries] at hafter
  exact (pair_sublist_entries hsound').mp hafter

theorem other_commands_keep_their_order_twoCommands :
    ∃ d ∈ afterTwoCommands.arrange.remoteCommands.rows,
      ∃ d' ∈ afterTwoCommands.arrange.remoteCommands.rows,
        d.key = "users" ∧ d'.key = "types" ∧ d.seq < d'.seq := by
  obtain ⟨trace, hrun, -⟩ := run_executeAll
    (show executeAll noting twoCommands newCluster = .ok afterTwoCommands from rfl)
  have hmore : Run (Step noting) afterTwoCommands _ _ := Run.nil.snoc .arranged
  have hfirst : ⟨"users", 1, false, "v"⟩ ∈ afterTwoCommands.remoteCommands.rows := by decide
  have hsecond : ⟨"types", 2, true, "t"⟩ ∈ afterTwoCommands.remoteCommands.rows := by decide
  exact other_commands_keep_their_order rfl hrun hfirst hsecond (by decide) (by decide) (by decide)
    hmore (by simp) (by simp)

end

end Promscale.Nodes
