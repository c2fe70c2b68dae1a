/-!
# Members of an object under their keys

An object lists its members in the order of their keys. Built from pairs it keeps the last
value of each key, so it has exactly the pairs as members when these agree on their keys.
-/
namespace Promscale.Lib.Members

variable {κ β : Type} [DecidableEq κ] (lt : κ → κ → Prop) [DecidableRel lt]

/-- The members with the value of one key set. -/
def insert (k : κ) (v : β) : List (κ × β) → List (κ × β)
  | [] => [(k, v)]
  | (k', v') :: rest =>
    if k = k' then (k, v) :: rest
    else if lt k k' then (k, v) :: (k', v') :: rest
    else (k', v') :: insert k v rest

def ofPairs (pairs : List (κ × β)) : List (κ × β) :=
  pairs.foldl (fun members (k, v) => insert lt k v members) []

variable {lt}

theorem mem_insert {k : κ} {v : β} {members : List (κ × β)} {x : κ × β}
    (h : x ∈ insert lt k v members) : x = (k, v) ∨ x ∈ members := by
  induction members with
  | nil => simpa [insert] using h
  | cons member rest ih =>
    obtain ⟨k', v'⟩ := member
    simp only [insert] at h
    split at h
    · rcases List.mem_cons.mp h with rfl | h
      · exact .inl rfl
      · exact .inr (List.mem_cons_of_mem _ h)
    · split at h
      · exact List.mem_cons.mp h
      · rcases List.mem_cons.mp h with rfl | h
        · exact .inr List.mem_cons_self
        · exact (ih h).imp_right (List.mem_cons_of_mem _)

theorem insert_self (k : κ) (v : β) (members : List (κ × β)) : (k, v) ∈ insert lt k v members := by
  induction members with
  | nil => simp [insert]
  | cons member rest ih =>
    obtain ⟨k', v'⟩ := member
    simp only [insert]
    split
    · exact List.mem_cons_self
    · split
      · exact List.mem_cons_self
      · exact List.mem_cons_of_mem _ ih

/-- Members under other keys stay. -/
theorem insert_of_ne {k : κ} {v : β} {members : List (κ × β)} {x : κ × β} (hx : x ∈ members)
    (hne : x.1 ≠ k) : x ∈ insert lt k v members := by
  induction members with
  | nil => cases hx
  | cons member rest ih =>
    obtain ⟨k', v'⟩ := member
    simp only [insert]
    split
    · rename_i heq
      rcases List.mem_cons.mp hx with rfl | hx
      · exact absurd heq.symm hne
      · exact List.mem_cons_of_mem _ hx
    · split
      · exact List.mem_cons_of_mem _ hx
      · rcases List.mem_cons.mp hx with rfl | hx
        · exact List.mem_cons_self
        · exact List.mem_cons_of_mem _ (ih hx)

@[simp] theorem find?_insert_self (k : κ) (v : β) (members : List (κ × β)) :
    (insert lt k v members).find? (·.1 = k) = some (k, v) := by
  induction members with
  | nil => simp [insert]
  | cons member rest ih =>
    obtain ⟨k', v'⟩ := member
    simp only [insert]
    split
    · simp
    · split
      · simp
      · rename_i hne _
        rw [List.find?_cons_of_neg (by simpa using fun h => hne h.symm), ih]

theorem find?_insert_of_ne {k k' : κ} (hne : k' ≠ k) (v : β) (members : List (κ × β)) :
    (insert lt k v members).find? (·.1 = k') = members.find? (·.1 = k') := by
  have hk : ∀ rest : List (κ × β),
      ((k, v) :: rest).find? (·.1 = k') = rest.find? (·.1 = k') := by
    intro rest
    apply List.find?_cons_of_neg
    simpa using hne.symm
  induction members with
  | nil => exact hk []
  | cons member rest ih =>
    obtain ⟨l, w⟩ := member
    simp only [insert]
    split
    · rename_i heq
      subst heq
      have hw : ((k, w) :: rest).find? (·.1 = k') = rest.find? (·.1 = k') := by
        apply List.find?_cons_of_neg
        simpa using hne.symm
      rw [hk, hw]
    · split
      · exact hk _
      · rw [List.find?_cons, List.find?_cons, ih]

/-- Under a strict total order the keys stay in order. -/
theorem insert_sorted (htrans : ∀ a b c : κ, lt a b → lt b c → lt a c)
    (htotal : ∀ a b : κ, a ≠ b → ¬ lt a b → lt b a) (k : κ) (v : β) {members : List (κ × β)}
    (h : (members.map Prod.fst).Pairwise lt) :
    ((insert lt k v members).map Prod.fst).Pairwise lt := by
  induction members with
  | nil => exact List.pairwise_singleton _ _
  | cons member rest ih =>
    obtain ⟨k', v'⟩ := member
    obtain ⟨hfirst, hrest⟩ := List.pairwise_cons.mp h
    simp only [insert]
    split
    · rename_i heq
      subst heq
      exact h
    · split
      · rename_i hlt
        refine List.pairwise_cons.mpr ⟨?_, h⟩
        intro a ha
        rcases List.mem_cons.mp ha with rfl | ha
        · exact hlt
        · exact htrans _ _ _ hlt (hfirst a ha)
      · rename_i hne hlt
        refine List.pairwise_cons.mpr ⟨?_, ih hrest⟩
        intro a ha
        obtain ⟨x, hx, rfl⟩ := List.mem_map.mp ha
        rcases mem_insert hx with rfl | hx
        · exact htotal _ _ hne hlt
        · exact hfirst _ (List.mem_map_of_mem hx)

theorem ofPairs_sorted (htrans : ∀ a b c : κ, lt a b → lt b c → lt a c)
    (htotal : ∀ a b : κ, a ≠ b → ¬ lt a b → lt b a) (pairs : List (κ × β)) :
    ((ofPairs lt pairs).map Prod.fst).Pairwise lt := by
  suffices h : ∀ members : List (κ × β), (members.map Prod.fst).Pairwise lt →
      ((pairs.foldl (fun members (k, v) => insert lt k v members) members).map
        Prod.fst).Pairwise lt from h [] .nil
  induction pairs with
  | nil => exact fun members h => h
  | cons pair pairs ih => exact fun members h => ih _ (insert_sorted htrans htotal _ _ h)

/-- Pairs that agree on their keys all become members, and nothing else does. -/
theorem mem_ofPairs {pairs : List (κ × β)} (h : ∀ x ∈ pairs, ∀ y ∈ pairs, x.1 = y.1 → x = y)
    (x : κ × β) : x ∈ ofPairs lt pairs ↔ x ∈ pairs := by
  -- the members so far are pairs as well
  suffices hfold : ∀ (done rest members : List (κ × β)), done ++ rest = pairs →
      (∀ y, y ∈ members ↔ y ∈ done) →
      (x ∈ rest.foldl (fun members (k, v) => insert lt k v members) members ↔ x ∈ pairs) from
    hfold [] pairs [] rfl (by simp)
  intro done rest
  induction rest generalizing done with
  | nil =>
    intro members hpairs hmembers
    rw [List.foldl_nil, hmembers x, ← hpairs, List.append_nil]
  | cons pair rest ih =>
    intro members hpairs hmembers
    obtain ⟨k, v⟩ := pair
    refine ih (done ++ [(k, v)]) (insert lt k v members) (by simpa using hpairs) ?_
    intro y
    have hpair : (k, v) ∈ pairs := by simp [← hpairs]
    constructor
    · intro hy
      rcases mem_insert hy with rfl | hy
      · simp
      · simp [(hmembers y).mp hy]
    · intro hy
      rw [List.mem_append, List.mem_singleton] at hy
      by_cases hkey : y.1 = k
      · have hmem : y ∈ pairs := by
          rcases hy with hy | rfl
          · simp [← hpairs, hy]
          · exact hpair
        rw [h y hmem (k, v) hpair hkey]
        exact insert_self k v members
      · rcases hy with hy | rfl
        · exact insert_of_ne ((hmembers y).mpr hy) hkey
        · exact absurd rfl hkey

/-- Looking a key up finds the pair with it. -/
theorem find?_ofPairs {pairs : List (κ × β)} (h : ∀ x ∈ pairs, ∀ y ∈ pairs, x.1 = y.1 → x = y)
    (k : κ) (x : κ × β) : (ofPairs lt pairs).find? (·.1 = k) = some x ↔ x ∈ pairs ∧ x.1 = k := by
  constructor
  · intro hfind
    exact ⟨(mem_ofPairs h x).mp (List.mem_of_find?_eq_some hfind),
      by simpa using List.find?_some hfind⟩
  · rintro ⟨hx, rfl⟩
    cases hfind : (ofPairs lt pairs).find? (·.1 = x.1) with
    | none =>
      have := List.find?_eq_none.mp hfind x ((mem_ofPairs h x).mpr hx)
      simp at this
    | some y =>
      have hy := (mem_ofPairs h y).mp (List.mem_of_find?_eq_some hfind)
      have hkey : y.1 = x.1 := by simpa using List.find?_some hfind
      rw [h y hy x hx hkey]

end Promscale.Lib.Members
