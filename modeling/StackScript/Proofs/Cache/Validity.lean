import Mathlib.Data.List.Nodup
import StackScript.Cache

/-!
# Valid caches

`Cache.Valid` is what every use of a cache keeps: no key is in two of the four lists or twice in
one, no list is longer than the capacity, neither is the target, and there is at most one cached key
more than the capacity.

A cache changes in three ways only: a key leaves a list (`Within`, `TakenOut`), the key used least
lately of a list becomes a ghost (`MakesRoom`), and a key that is in no list comes in front of
`recent` or `frequent` of a cache that is `Ready` for it. Each keeps a valid cache valid
(`Within.valid`, `MakesRoom.valid`, `Ready.valid_pushRecent`, `Ready.valid_pushFrequent`), and none
brings in a key but the last (`ReadyFrom`).

The bound on the cached keys cannot be the capacity. A cache full of recent keys whose target is the
capacity gives none of them up (`MakesRoom.declined`), and a ghost that comes back is put into
`frequent` all the same.
-/

set_option autoImplicit false

namespace StackScript.Cache

variable {κ β : Type} {c c' r : Cache κ β} {k x : κ} {v : β} {e : κ × β}

/-- The cached keys. -/
def keys (c : Cache κ β) : List κ := c.entries.map Prod.fst

/-- The keys of the four lists. -/
def known (c : Cache κ β) : List κ :=
  c.recent.map Prod.fst ++ c.frequent.map Prod.fst ++ c.recentGhosts ++ c.frequentGhosts

/-- What every use of a cache keeps. -/
structure Valid (c : Cache κ β) : Prop where
  /-- No list has a key twice, and no two lists have a key in common. -/
  nodup : c.known.Nodup
  length_recent_le : c.recent.length ≤ c.capacity
  length_frequent_le : c.frequent.length ≤ c.capacity
  length_recentGhosts_le : c.recentGhosts.length ≤ c.capacity
  length_frequentGhosts_le : c.frequentGhosts.length ≤ c.capacity
  target_le : c.target ≤ c.capacity
  size_le : c.size ≤ c.capacity + 1

theorem valid_empty (capacity : Nat) : (empty capacity : Cache κ β).Valid where
  nodup := List.nodup_nil
  length_recent_le := Nat.zero_le _
  length_frequent_le := Nat.zero_le _
  length_recentGhosts_le := Nat.zero_le _
  length_frequentGhosts_le := Nat.zero_le _
  target_le := Nat.zero_le _
  size_le := Nat.zero_le _

/-! ## Keys -/

theorem keys_eq (c : Cache κ β) : c.keys = c.recent.map Prod.fst ++ c.frequent.map Prod.fst :=
  List.map_append

theorem known_eq (c : Cache κ β) : c.known = c.keys ++ (c.recentGhosts ++ c.frequentGhosts) := by
  rw [known, keys_eq, List.append_assoc]

theorem length_keys (c : Cache κ β) : c.keys.length = c.size := by
  rw [keys, List.length_map, entries, List.length_append, size]

theorem mem_keys : x ∈ c.keys ↔ x ∈ c.recent.map Prod.fst ∨ x ∈ c.frequent.map Prod.fst := by
  rw [keys_eq, List.mem_append]

theorem mem_known :
    x ∈ c.known ↔ x ∈ c.keys ∨ x ∈ c.recentGhosts ∨ x ∈ c.frequentGhosts := by
  rw [known_eq, List.mem_append, List.mem_append]

theorem Valid.nodup_keys (h : c.Valid) : c.keys.Nodup :=
  h.nodup.sublist (by rw [known_eq]; exact List.sublist_append_left _ _)

theorem Valid.retarget (h : c.Valid) {t : Nat} (ht : t ≤ c.capacity) :
    { c with target := t }.Valid := { h with target_le := ht }

theorem Valid.nodup_recentGhosts (h : c.Valid) : c.recentGhosts.Nodup :=
  (List.nodup_append.1 (List.nodup_append.1 h.nodup).1).2.1

theorem Valid.nodup_frequentGhosts (h : c.Valid) : c.frequentGhosts.Nodup :=
  (List.nodup_append.1 h.nodup).2.1

theorem Valid.not_mem_frequentGhosts (h : c.Valid) (hk : k ∈ c.recentGhosts) :
    k ∉ c.frequentGhosts := fun hf =>
  (List.nodup_append.1 h.nodup).2.2 k (List.mem_append_right _ hk) k hf rfl

/-! ## Less in the lists -/

/-- Each list of `r` is a part of the one of `c`. -/
structure Within (r c : Cache κ β) : Prop where
  capacity : r.capacity = c.capacity
  target : r.target = c.target
  recent : r.recent.Sublist c.recent
  frequent : r.frequent.Sublist c.frequent
  recentGhosts : r.recentGhosts.Sublist c.recentGhosts
  frequentGhosts : r.frequentGhosts.Sublist c.frequentGhosts

theorem Within.refl (c : Cache κ β) : c.Within c := ⟨rfl, rfl, .refl _, .refl _, .refl _, .refl _⟩

theorem Within.known (h : r.Within c) : r.known.Sublist c.known :=
  (((h.recent.map _).append (h.frequent.map _)).append h.recentGhosts).append h.frequentGhosts

theorem Within.size_le (h : r.Within c) : r.size ≤ c.size :=
  Nat.add_le_add h.recent.length_le h.frequent.length_le

theorem Within.valid (hr : r.Within c) (h : c.Valid) : r.Valid where
  nodup := h.nodup.sublist hr.known
  length_recent_le := hr.capacity ▸ Nat.le_trans hr.recent.length_le h.length_recent_le
  length_frequent_le := hr.capacity ▸ Nat.le_trans hr.frequent.length_le h.length_frequent_le
  length_recentGhosts_le :=
    hr.capacity ▸ Nat.le_trans hr.recentGhosts.length_le h.length_recentGhosts_le
  length_frequentGhosts_le :=
    hr.capacity ▸ Nat.le_trans hr.frequentGhosts.length_le h.length_frequentGhosts_le
  target_le := by rw [hr.target, hr.capacity]; exact h.target_le
  size_le := hr.capacity ▸ Nat.le_trans hr.size_le h.size_le

/-- `r` is `c` without the entry of a key. -/
structure TakenOut (c : Cache κ β) (k : κ) (r : Cache κ β) : Prop where
  within : r.Within c
  keys : c.keys.Perm (k :: r.keys)
  recentGhosts : r.recentGhosts = c.recentGhosts
  frequentGhosts : r.frequentGhosts = c.frequentGhosts

namespace TakenOut

variable {front back : List (κ × β)}

theorem ofRecent (h : c.recent = front ++ e :: back) :
    c.TakenOut e.1 { c with recent := front ++ back } where
  within :=
    { capacity := rfl
      target := rfl
      recent := by rw [h]; exact (List.sublist_cons_self e back).append_left front
      frequent := .refl _
      recentGhosts := .refl _
      frequentGhosts := .refl _ }
  keys := by simp [keys_eq, h]
  recentGhosts := rfl
  frequentGhosts := rfl

theorem ofFrequent (h : c.frequent = front ++ e :: back) :
    c.TakenOut e.1 { c with frequent := front ++ back } where
  within :=
    { capacity := rfl
      target := rfl
      recent := .refl _
      frequent := by rw [h]; exact (List.sublist_cons_self e back).append_left front
      recentGhosts := .refl _
      frequentGhosts := .refl _ }
  keys := by
    simp only [keys_eq, h, List.map_append, List.map_cons, ← List.append_assoc]
    exact List.perm_middle
  recentGhosts := rfl
  frequentGhosts := rfl

theorem size (h : c.TakenOut k r) : c.size = r.size + 1 := by
  rw [← length_keys, ← length_keys, h.keys.length_eq, List.length_cons]

theorem nodup (h : c.TakenOut k r) (hc : c.Valid) : (k :: r.known).Nodup := by
  have hp : c.known.Perm (k :: r.known) := by
    rw [known_eq, known_eq, h.recentGhosts, h.frequentGhosts]
    exact h.keys.append_right _
  exact hp.nodup_iff.1 hc.nodup

theorem mem (h : c.TakenOut k r) : k ∈ c.keys := h.keys.mem_iff.2 List.mem_cons_self

theorem mem_keys (h : c.TakenOut k r) (hx : x ∈ r.keys) : x ∈ c.keys :=
  h.keys.mem_iff.2 (List.mem_cons_of_mem k hx)

theorem not_mem_known (h : c.TakenOut k r) (hc : c.Valid) : k ∉ r.known :=
  (List.nodup_cons.1 (h.nodup hc)).1

end TakenOut

/-! ## A key in front of a list -/

theorem map_pushFront {α γ : Type} (f : α → γ) (n : Nat) (a : α) (as : List α) :
    (pushFront n a as).map f = pushFront n (f a) (as.map f) := List.map_take

theorem mem_pushFront_self {α : Type} {n : Nat} (hn : 0 < n) (a : α) (as : List α) :
    a ∈ pushFront n a as := by
  obtain ⟨m, rfl⟩ := Nat.exists_eq_succ_of_ne_zero (Nat.ne_of_gt hn)
  exact List.mem_cons_self

theorem length_pushFront_le_add_one {α : Type} (n : Nat) (a : α) (as : List α) :
    (pushFront n a as).length ≤ as.length + 1 :=
  List.length_take_le' n (a :: as)

theorem nodup_pushFront_append {bs cs : List κ} (h : (bs ++ cs).Nodup) (hk : k ∉ bs ++ cs)
    (n : Nat) : (pushFront n k bs ++ cs).Nodup :=
  (List.nodup_cons.2 ⟨hk, h⟩).sublist ((List.take_sublist n (k :: bs)).append_right cs)

theorem nodup_pushFront {as bs cs : List κ} (h : (as ++ bs ++ cs).Nodup)
    (hk : k ∉ as ++ bs ++ cs) (n : Nat) : (as ++ pushFront n k bs ++ cs).Nodup := by
  rw [List.append_assoc] at h hk
  have hnew : (as ++ k :: (bs ++ cs)).Nodup := List.nodup_middle.2 (List.nodup_cons.2 ⟨hk, h⟩)
  rw [List.append_assoc]
  exact hnew.sublist (((List.take_sublist n (k :: bs)).append_right cs).append_left as)

/-- The cache that remembers a key as a recent ghost. -/
def pushRecentGhost (c : Cache κ β) (k : κ) : Cache κ β :=
  { c with recentGhosts := pushFront c.capacity k c.recentGhosts }

def pushFrequentGhost (c : Cache κ β) (k : κ) : Cache κ β :=
  { c with frequentGhosts := pushFront c.capacity k c.frequentGhosts }

/-- The cache in which a key is the recent one used last. -/
def pushRecent (c : Cache κ β) (k : κ) (v : β) : Cache κ β :=
  { c with recent := pushFront c.capacity (k, v) c.recent }

def pushFrequent (c : Cache κ β) (k : κ) (v : β) : Cache κ β :=
  { c with frequent := pushFront c.capacity (k, v) c.frequent }

theorem mem_keys_pushRecent (hn : 0 < c.capacity) (k : κ) (v : β) :
    k ∈ (c.pushRecent k v).keys := by
  rw [mem_keys, pushRecent, map_pushFront]
  exact .inl (mem_pushFront_self hn k _)

theorem mem_keys_pushFrequent (hn : 0 < c.capacity) (k : κ) (v : β) :
    k ∈ (c.pushFrequent k v).keys := by
  rw [mem_keys, pushFrequent, map_pushFront]
  exact .inr (mem_pushFront_self hn k _)

theorem keys_pushRecent_of_lt (h : c.recent.length < c.capacity) (k : κ) (v : β) :
    (c.pushRecent k v).keys.Perm (k :: c.keys) := by
  simp [keys_eq, pushRecent, pushFront_of_lt h]

theorem keys_pushFrequent_of_lt (h : c.frequent.length < c.capacity) (k : κ) (v : β) :
    (c.pushFrequent k v).keys.Perm (k :: c.keys) := by
  simp [keys_eq, pushFrequent, pushFront_of_lt h]

theorem known_pushRecent_subset (c : Cache κ β) (k : κ) (v : β) :
    (c.pushRecent k v).known ⊆ k :: c.known := by
  intro x hx
  simp only [known, pushRecent, map_pushFront, List.mem_append, List.mem_cons] at hx ⊢
  rcases hx with ((hx | hx) | hx) | hx
  · exact (mem_of_mem_pushFront hx).imp_right fun hx => .inl (.inl (.inl hx))
  · exact .inr (.inl (.inl (.inr hx)))
  · exact .inr (.inl (.inr hx))
  · exact .inr (.inr hx)

theorem known_pushFrequent_subset (c : Cache κ β) (k : κ) (v : β) :
    (c.pushFrequent k v).known ⊆ k :: c.known := by
  intro x hx
  simp only [known, pushFrequent, map_pushFront, List.mem_append, List.mem_cons] at hx ⊢
  rcases hx with ((hx | hx) | hx) | hx
  · exact .inr (.inl (.inl (.inl hx)))
  · exact (mem_of_mem_pushFront hx).imp_right fun hx => .inl (.inl (.inr hx))
  · exact .inr (.inl (.inr hx))
  · exact .inr (.inr hx)

theorem valid_pushRecentGhost (h : c.Valid) (hk : k ∉ c.known) : (c.pushRecentGhost k).Valid where
  nodup := nodup_pushFront h.nodup hk c.capacity
  length_recent_le := h.length_recent_le
  length_frequent_le := h.length_frequent_le
  length_recentGhosts_le := length_pushFront_le _ _ _
  length_frequentGhosts_le := h.length_frequentGhosts_le
  target_le := h.target_le
  size_le := h.size_le

theorem valid_pushFrequentGhost (h : c.Valid) (hk : k ∉ c.known) :
    (c.pushFrequentGhost k).Valid where
  nodup := by
    have hn : (c.known ++ []).Nodup := by rw [List.append_nil]; exact h.nodup
    have hk' : k ∉ c.known ++ [] := by rwa [List.append_nil]
    have hp := nodup_pushFront hn hk' c.capacity
    rwa [List.append_nil] at hp
  length_recent_le := h.length_recent_le
  length_frequent_le := h.length_frequent_le
  length_recentGhosts_le := h.length_recentGhosts_le
  length_frequentGhosts_le := length_pushFront_le _ _ _
  target_le := h.target_le
  size_le := h.size_le

/-- A cache that can take in a key: there is room for it, and it is not there. -/
structure Ready (r : Cache κ β) (k : κ) : Prop where
  valid : r.Valid
  size_le : r.size ≤ r.capacity
  not_mem : k ∉ r.known

theorem Ready.valid_pushRecent (h : r.Ready k) (v : β) : (r.pushRecent k v).Valid where
  nodup := by
    have hn := h.valid.nodup
    have hk := h.not_mem
    simp only [known, List.append_assoc] at hn hk
    have hp := nodup_pushFront_append hn hk r.capacity
    simpa only [known, pushRecent, map_pushFront, List.append_assoc] using hp
  length_recent_le := length_pushFront_le _ _ _
  length_frequent_le := h.valid.length_frequent_le
  length_recentGhosts_le := h.valid.length_recentGhosts_le
  length_frequentGhosts_le := h.valid.length_frequentGhosts_le
  target_le := h.valid.target_le
  size_le := by
    have hr := length_pushFront_le_add_one r.capacity (k, v) r.recent
    have hs := h.size_le
    simp only [pushRecent, size] at hs ⊢
    omega

theorem Ready.valid_pushFrequent (h : r.Ready k) (v : β) : (r.pushFrequent k v).Valid where
  nodup := by
    have hn := h.valid.nodup
    have hk := h.not_mem
    rw [known, List.append_assoc] at hn hk
    have hp := nodup_pushFront hn hk r.capacity
    rwa [← map_pushFront Prod.fst _ (k, v), ← List.append_assoc] at hp
  length_recent_le := h.valid.length_recent_le
  length_frequent_le := length_pushFront_le _ _ _
  length_recentGhosts_le := h.valid.length_recentGhosts_le
  length_frequentGhosts_le := h.valid.length_frequentGhosts_le
  target_le := h.valid.target_le
  size_le := by
    have hr := length_pushFront_le_add_one r.capacity (k, v) r.frequent
    have hs := h.size_le
    simp only [pushFrequent, size] at hs ⊢
    omega

/-! ## Making room -/

/-- What making room comes to. -/
inductive MakesRoom (c : Cache κ β) : Cache κ β → Prop
  /-- There is room. -/
  | idle (h : c.size < c.capacity) : MakesRoom c c
  | recent {r : Cache κ β} {k : κ} (full : c.capacity ≤ c.size) (h : c.TakenOut k r) :
      MakesRoom c (r.pushRecentGhost k)
  | frequent {r : Cache κ β} {k : κ} (full : c.capacity ≤ c.size) (h : c.TakenOut k r) :
      MakesRoom c (r.pushFrequentGhost k)
  /-- All keys are recent, and there are no more of them than the target. -/
  | declined (h : c.frequent = []) (ht : c.recent.length ≤ c.target) : MakesRoom c c

theorem takenOut_dropLast_recent (h : c.recent ≠ []) :
    c.TakenOut (c.recent.getLast h).1 { c with recent := c.recent.dropLast } := by
  have he : c.recent = c.recent.dropLast ++ [c.recent.getLast h] :=
    (List.dropLast_append_getLast h).symm
  have ht := TakenOut.ofRecent he
  rwa [List.append_nil] at ht

theorem takenOut_dropLast_frequent (h : c.frequent ≠ []) :
    c.TakenOut (c.frequent.getLast h).1 { c with frequent := c.frequent.dropLast } := by
  have he : c.frequent = c.frequent.dropLast ++ [c.frequent.getLast h] :=
    (List.dropLast_append_getLast h).symm
  have ht := TakenOut.ofFrequent he
  rwa [List.append_nil] at ht

theorem demoteRecent_eq (h : c.recent ≠ []) :
    c.demoteRecent =
      { c with recent := c.recent.dropLast }.pushRecentGhost (c.recent.getLast h).1 := by
  unfold demoteRecent
  rw [List.getLast?_eq_some_getLast h]
  rfl

theorem demoteFrequent_eq (h : c.frequent ≠ []) :
    c.demoteFrequent =
      { c with frequent := c.frequent.dropLast }.pushFrequentGhost (c.frequent.getLast h).1 := by
  unfold demoteFrequent
  rw [List.getLast?_eq_some_getLast h]
  rfl

theorem demoteFrequent_of_nil (h : c.frequent = []) : c.demoteFrequent = c := by
  unfold demoteFrequent
  rw [h]
  rfl

theorem makesRoom (c : Cache κ β) (b : Bool) : c.MakesRoom (c.makeRoom b) := by
  unfold makeRoom
  split
  · rename_i full
    unfold demote
    split
    · rename_i hr
      have hne : c.recent ≠ [] := List.length_pos_iff.1 hr.1
      rw [demoteRecent_eq hne]
      exact .recent full (takenOut_dropLast_recent hne)
    · by_cases hne : c.frequent = []
      · rw [demoteFrequent_of_nil hne]
        exact .declined hne (by omega)
      · rw [demoteFrequent_eq hne]
        exact .frequent full (takenOut_dropLast_frequent hne)
  · exact .idle (by omega)

namespace MakesRoom

theorem capacity (h : c.MakesRoom r) : r.capacity = c.capacity := by
  cases h with
  | idle => rfl
  | recent full h => exact h.within.capacity
  | frequent full h => exact h.within.capacity
  | declined => rfl

/-- A cache that was full gives one key up, or has `capacity` recent keys and no others. -/
theorem valid (h : c.MakesRoom r) (hc : c.Valid) : r.Valid ∧ r.size ≤ r.capacity := by
  have hs := hc.size_le
  cases h with
  | idle h => exact ⟨hc, Nat.le_of_lt h⟩
  | @recent r k full h =>
    have hr : r.size ≤ r.capacity := by rw [h.within.capacity]; rw [h.size] at hs; omega
    exact ⟨valid_pushRecentGhost (h.within.valid hc) (h.not_mem_known hc), hr⟩
  | @frequent r k full h =>
    have hr : r.size ≤ r.capacity := by rw [h.within.capacity]; rw [h.size] at hs; omega
    exact ⟨valid_pushFrequentGhost (h.within.valid hc) (h.not_mem_known hc), hr⟩
  | declined h _ =>
    refine ⟨hc, ?_⟩
    rw [size, h]
    exact hc.length_recent_le

theorem mem_keys (h : c.MakesRoom r) (hx : x ∈ r.keys) : x ∈ c.keys := by
  cases h with
  | idle => exact hx
  | recent full h => exact h.mem_keys hx
  | frequent full h => exact h.mem_keys hx
  | declined => exact hx

/-- Only what was cached becomes a ghost. -/
theorem mem_recentGhosts (h : c.MakesRoom r) (hx : x ∈ r.recentGhosts) :
    x ∈ c.recentGhosts ∨ x ∈ c.keys := by
  cases h with
  | idle => exact .inl hx
  | recent full h =>
    rcases mem_of_mem_pushFront hx with rfl | hx
    · exact .inr h.mem
    · exact .inl (h.recentGhosts ▸ hx)
  | frequent full h => exact .inl (h.recentGhosts ▸ hx)
  | declined => exact .inl hx

theorem mem_frequentGhosts (h : c.MakesRoom r) (hx : x ∈ r.frequentGhosts) :
    x ∈ c.frequentGhosts ∨ x ∈ c.keys := by
  cases h with
  | idle => exact .inl hx
  | recent full h => exact .inl (h.frequentGhosts ▸ hx)
  | frequent full h =>
    rcases mem_of_mem_pushFront hx with rfl | hx
    · exact .inr h.mem
    · exact .inl (h.frequentGhosts ▸ hx)
  | declined => exact .inl hx

theorem mem_known (h : c.MakesRoom r) (hx : x ∈ r.known) : x ∈ c.known := by
  rw [Cache.mem_known] at hx ⊢
  rcases hx with hx | hx | hx
  · exact .inl (h.mem_keys hx)
  · exact (h.mem_recentGhosts hx).symm.imp_right .inl
  · exact (h.mem_frequentGhosts hx).symm.imp_right .inr

end MakesRoom

/-- What is left of a cache can take in a key. -/
structure ReadyFrom (c r : Cache κ β) (k : κ) : Prop where
  ready : r.Ready k
  capacity : r.capacity = c.capacity
  known_subset : r.known ⊆ c.known

/-- A part of a valid cache in which room was made can take in a key that is not there. -/
theorem MakesRoom.readyFrom (hroom : c.MakesRoom c') (h : c.Valid) (hw : r.Within c')
    (hk : k ∉ r.known) : c.ReadyFrom r k where
  ready := by
    obtain ⟨hc', hsize⟩ := hroom.valid h
    refine ⟨hw.valid hc', ?_, hk⟩
    rw [hw.capacity]
    exact Nat.le_trans hw.size_le hsize
  capacity := hw.capacity.trans hroom.capacity
  known_subset := fun _ hx => hroom.mem_known (hw.known.subset hx)

end StackScript.Cache
