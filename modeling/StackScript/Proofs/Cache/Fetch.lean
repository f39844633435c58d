import Mathlib.Data.Finset.Card
import StackScript.Proofs.Cache.Validity

/-!
# Fetching from a cache

`fetch` looks a key up and takes it in if it is missed. Whichever list the key was in, or none, what
is done comes to three things: the key leaves the list it is in, one other key may have to make
room, and the key comes in front of `frequent` or of `recent` (`fetch_eq_push`). So a valid cache
stays valid (`valid_fetch`), the key is cached afterwards (`mem_keys_fetch`), and no other key gets
into a list that was in none (`known_fetch_subset`).

A key that is new to a cache with room makes nobody leave, and neither does one that is found. Keys
of which there are no more than the capacity are therefore all cached as soon as they have been
fetched, and stay so (`Holds.fetchAll`).
-/

set_option autoImplicit false

namespace StackScript.Cache

variable {κ β : Type} {c c' r : Cache κ β} {k x : κ} {v : β} {seen : List κ}

/-! ## Room for ghosts that come back -/

/-- The cache with room for a ghost that had left `recent`. The target has moved up. -/
def roomForRecent (c : Cache κ β) : Cache κ β :=
  { c with
    target := min c.capacity
      (c.target + stride c.recentGhosts.length c.frequentGhosts.length) }.makeRoom false

/-- The cache with room for a ghost that had left `frequent`. The target has moved down. -/
def roomForFrequent (c : Cache κ β) : Cache κ β :=
  { c with
    target := c.target - stride c.frequentGhosts.length c.recentGhosts.length }.makeRoom true

theorem Valid.makesRoom_recent (h : c.Valid) :
    ∃ t, { c with target := t }.Valid ∧ { c with target := t }.MakesRoom c.roomForRecent :=
  ⟨_, h.retarget (Nat.min_le_left _ _), makesRoom _ false⟩

theorem Valid.makesRoom_frequent (h : c.Valid) :
    ∃ t, { c with target := t }.Valid ∧ { c with target := t }.MakesRoom c.roomForFrequent :=
  ⟨_, h.retarget (Nat.le_trans (Nat.sub_le _ _) h.target_le), makesRoom _ true⟩

/-! ## Taking in -/

variable [BEq κ]

theorem reviveRecent_eq (c : Cache κ β) (k : κ) (v : β) :
    c.reviveRecent k v =
      { c.roomForRecent with
        recentGhosts := c.roomForRecent.recentGhosts.erase k }.pushFrequent k v := rfl

theorem reviveFrequent_eq (c : Cache κ β) (k : κ) (v : β) :
    c.reviveFrequent k v =
      { c.roomForFrequent with
        frequentGhosts := c.roomForFrequent.frequentGhosts.erase k }.pushFrequent k v := rfl

theorem reviveRecent_eq_push [LawfulBEq κ] (h : c.Valid) (hk : k ∉ c.keys)
    (hg : k ∈ c.recentGhosts) (v : β) :
    ∃ r : Cache κ β, c.ReadyFrom r k ∧ c.reviveRecent k v = r.pushFrequent k v := by
  obtain ⟨t, hc, hroom⟩ := h.makesRoom_recent
  have hw : { c.roomForRecent with
      recentGhosts := c.roomForRecent.recentGhosts.erase k }.Within c.roomForRecent :=
    { Within.refl c.roomForRecent with recentGhosts := List.erase_sublist }
  refine ⟨_, { hroom.readyFrom hc hw fun hm => ?_ with }, c.reviveRecent_eq k v⟩
  rcases mem_known.1 hm with hm | hm | hm
  · exact hk (hroom.mem_keys hm)
  -- if making room has pushed the ghost out, there is nothing to erase
  · exact (hroom.valid hc).1.nodup_recentGhosts.not_mem_erase hm
  · exact (hroom.mem_frequentGhosts hm).elim (h.not_mem_frequentGhosts hg) hk

theorem reviveFrequent_eq_push [LawfulBEq κ] (h : c.Valid) (hk : k ∉ c.keys)
    (hg : k ∉ c.recentGhosts) (v : β) :
    ∃ r : Cache κ β, c.ReadyFrom r k ∧ c.reviveFrequent k v = r.pushFrequent k v := by
  obtain ⟨t, hc, hroom⟩ := h.makesRoom_frequent
  have hw : { c.roomForFrequent with
      frequentGhosts := c.roomForFrequent.frequentGhosts.erase k }.Within c.roomForFrequent :=
    { Within.refl c.roomForFrequent with frequentGhosts := List.erase_sublist }
  refine ⟨_, { hroom.readyFrom hc hw fun hm => ?_ with }, c.reviveFrequent_eq k v⟩
  rcases mem_known.1 hm with hm | hm | hm
  · exact hk (hroom.mem_keys hm)
  · exact (hroom.mem_recentGhosts hm).elim hg hk
  · exact (hroom.valid hc).1.nodup_frequentGhosts.not_mem_erase hm

theorem dropLast_ite_sublist {α : Type} (p : Prop) [Decidable p] (as : List α) :
    (if p then as.dropLast else as).Sublist as := by
  split
  · exact List.dropLast_sublist as
  · exact .refl as

omit [BEq κ] in
theorem takeNew_eq_push (h : c.Valid) (hk : k ∉ c.known) (v : β) :
    ∃ r : Cache κ β, c.ReadyFrom r k ∧ c.takeNew k v = r.pushRecent k v := by
  unfold takeNew
  extract_lets c'
  have hroom : c.MakesRoom c' := makesRoom c false
  have hw : { c' with
      recentGhosts :=
        if c.capacity - c.target < c.recentGhosts.length then c'.recentGhosts.dropLast
        else c'.recentGhosts
      frequentGhosts :=
        if c.target < c.frequentGhosts.length then c'.frequentGhosts.dropLast
        else c'.frequentGhosts }.Within c' :=
    { Within.refl c' with
      recentGhosts := dropLast_ite_sublist _ _
      frequentGhosts := dropLast_ite_sublist _ _ }
  exact ⟨_, hroom.readyFrom h hw fun hm => hk (hroom.mem_known (hw.known.subset hm)), rfl⟩

/-- A key that was missed comes in front of a list, after it has left the ghosts and room has been
made. -/
theorem put_eq_push [LawfulBEq κ] (h : c.Valid) (hk : k ∉ c.keys) (v : β) :
    ∃ r : Cache κ β, c.ReadyFrom r k ∧
      (c.put k v = r.pushFrequent k v ∨ c.put k v = r.pushRecent k v) := by
  unfold put
  split
  · rename_i hrg
    obtain ⟨r, hr, he⟩ := reviveRecent_eq_push h hk (List.elem_iff.1 hrg) v
    exact ⟨r, hr, .inl he⟩
  · rename_i hrg
    rw [List.elem_iff] at hrg
    split
    · obtain ⟨r, hr, he⟩ := reviveFrequent_eq_push h hk hrg v
      exact ⟨r, hr, .inl he⟩
    · rename_i hfg
      rw [List.elem_iff] at hfg
      have hnew : k ∉ c.known := by
        rw [mem_known]
        rintro (hm | hm | hm)
        · exact hk hm
        · exact hrg hm
        · exact hfg hm
      obtain ⟨r, hr, he⟩ := takeNew_eq_push h hnew v
      exact ⟨r, hr, .inr he⟩

/-! ## Looking up -/

theorem split_of_lookup [LawfulBEq κ] {es : List (κ × β)} (h : es.lookup k = some v) :
    ∃ front back, es = front ++ (k, v) :: back ∧ es.eraseP (·.1 == k) = front ++ back := by
  obtain ⟨front, back, rfl, hf⟩ := List.lookup_eq_some_iff.1 h
  refine ⟨front, back, rfl, ?_⟩
  rw [List.eraseP_append_right _ fun e he => ?_, List.eraseP_cons_of_pos (by simp)]
  have := hf e he
  grind

theorem lookup_eq_none_iff_not_mem [LawfulBEq κ] {es : List (κ × β)} :
    es.lookup k = none ↔ k ∉ es.map Prod.fst := by
  rw [List.lookup_eq_none_iff]
  simp only [List.mem_map, not_exists, not_and, bne_iff_ne]
  exact ⟨fun h e he hk => h e he hk.symm, fun h e he hk => h e he hk.symm⟩

theorem get?_eq_none_iff [LawfulBEq κ] : c.get? k = none ↔ k ∉ c.keys := by
  rw [mem_keys, not_or, ← lookup_eq_none_iff_not_mem, ← lookup_eq_none_iff_not_mem]
  unfold get?
  cases c.recent.lookup k <;> cases c.frequent.lookup k <;> simp

/-- A key that is found is taken out of its list and comes in front of `frequent`. -/
theorem get?_eq_push [LawfulBEq κ] (h : c.Valid) (hg : c.get? k = some (v, c')) :
    ∃ r : Cache κ β, c.TakenOut k r ∧ c' = r.pushFrequent k v := by
  unfold get? at hg
  split at hg
  · rename_i w hl
    cases hg
    obtain ⟨front, back, he, hp⟩ := split_of_lookup hl
    exact ⟨_, .ofRecent he, by rw [hp]; rfl⟩
  · split at hg
    · rename_i w hl
      cases hg
      obtain ⟨front, back, he, hp⟩ := split_of_lookup hl
      refine ⟨_, .ofFrequent he, ?_⟩
      have hlt : (front ++ back).length < c.capacity := by
        have := h.length_frequent_le
        simp only [he, List.length_append, List.length_cons] at this ⊢
        omega
      simp only [pushFrequent, pushFront_of_lt hlt, hp]
    · cases hg

/-! ## Fetching -/

/-- The cache after a key was looked up, and taken in with a value if it was missed. -/
def fetch (c : Cache κ β) (k : κ) (v : β) : Cache κ β :=
  match c.get? k with
  | some (_, c') => c'
  | none => c.put k v

theorem fetch_of_get? {w : β} (h : c.get? k = some (w, c')) (v : β) : c.fetch k v = c' := by
  simp [fetch, h]

theorem fetch_of_missed (h : c.get? k = none) (v : β) : c.fetch k v = c.put k v := by
  simp [fetch, h]

variable [LawfulBEq κ]

theorem fetch_eq_push (h : c.Valid) (k : κ) (v : β) :
    ∃ (r : Cache κ β) (w : β), c.ReadyFrom r k ∧
      (c.fetch k v = r.pushFrequent k w ∨ c.fetch k v = r.pushRecent k w) := by
  cases hg : c.get? k with
  | none =>
    obtain ⟨r, hr, he⟩ := put_eq_push h (get?_eq_none_iff.1 hg) v
    rw [fetch_of_missed hg]
    exact ⟨r, v, hr, he⟩
  | some p =>
    obtain ⟨w, c'⟩ := p
    obtain ⟨r, ht, he⟩ := get?_eq_push h hg
    have hsize : r.size ≤ r.capacity := by
      have hsize := h.size_le
      rw [ht.size, ← ht.within.capacity] at hsize
      omega
    have hr : r.Ready k := ⟨ht.within.valid h, hsize, ht.not_mem_known h⟩
    rw [fetch_of_get? hg]
    exact ⟨r, w, ⟨hr, ht.within.capacity, ht.within.known.subset⟩, .inl he⟩

theorem valid_fetch (h : c.Valid) (k : κ) (v : β) :
    (c.fetch k v).Valid ∧ (c.fetch k v).capacity = c.capacity := by
  obtain ⟨r, w, hr, he | he⟩ := fetch_eq_push h k v
  · rw [he]
    exact ⟨hr.ready.valid_pushFrequent w, hr.capacity⟩
  · rw [he]
    exact ⟨hr.ready.valid_pushRecent w, hr.capacity⟩

/-- No key is heard of that was not fetched. -/
theorem known_fetch_subset (h : c.Valid) (k : κ) (v : β) :
    (c.fetch k v).known ⊆ k :: c.known := by
  obtain ⟨r, w, hr, he⟩ := fetch_eq_push h k v
  have hsub : k :: r.known ⊆ k :: c.known := List.cons_subset_cons k hr.known_subset
  rcases he with he | he
  · rw [he]
    exact List.Subset.trans (known_pushFrequent_subset r k w) hsub
  · rw [he]
    exact List.Subset.trans (known_pushRecent_subset r k w) hsub

/-- A key that was just fetched is cached, unless nothing is. -/
theorem mem_keys_fetch (h : c.Valid) (hn : 0 < c.capacity) (k : κ) (v : β) :
    k ∈ (c.fetch k v).keys := by
  obtain ⟨r, w, hr, he⟩ := fetch_eq_push h k v
  rw [← hr.capacity] at hn
  rcases he with he | he
  · rw [he]
    exact mem_keys_pushFrequent hn k w
  · rw [he]
    exact mem_keys_pushRecent hn k w

/-! ## Keys that fit -/

/-- A cache that gave nothing up: it has the keys of a list and remembers no others. -/
structure Holds (c : Cache κ β) (seen : List κ) : Prop where
  valid : c.Valid
  recentGhosts : c.recentGhosts = []
  frequentGhosts : c.frequentGhosts = []
  mem_keys : ∀ x, x ∈ c.keys ↔ x ∈ seen
  size_le : c.size ≤ c.capacity

omit [BEq κ] [LawfulBEq κ] in
theorem holds_empty (capacity : Nat) : (empty capacity : Cache κ β).Holds [] where
  valid := valid_empty capacity
  recentGhosts := rfl
  frequentGhosts := rfl
  mem_keys := fun _ => Iff.rfl
  size_le := Nat.zero_le _

/-- Where there is room, a new key is put in front of `recent` and nothing leaves. -/
theorem Holds.put_eq_push (h : c.Holds seen) (hroom : c.size < c.capacity) (k : κ) (v : β) :
    c.put k v = c.pushRecent k v := by
  have hm : c.makeRoom false = c := if_neg (Nat.not_le_of_lt hroom)
  simp [put, takeNew, hm, h.recentGhosts, h.frequentGhosts, pushRecent]

/-- If there is room for a key that is new, nothing is given up. -/
theorem Holds.fetch (h : c.Holds seen) (k : κ) (v : β) (hroom : k ∉ seen → c.size < c.capacity) :
    (c.fetch k v).Holds (seen ++ [k]) := by
  obtain ⟨hvalid, -⟩ := valid_fetch h.valid k v
  cases hg : c.get? k with
  | none =>
    have hlt := hroom fun hs => get?_eq_none_iff.1 hg ((h.mem_keys k).2 hs)
    have hrecent : c.recent.length < c.capacity := by
      unfold size at hlt
      omega
    have hp := keys_pushRecent_of_lt hrecent k v
    rw [fetch_of_missed hg, h.put_eq_push hlt] at hvalid ⊢
    exact
      { valid := hvalid
        recentGhosts := h.recentGhosts
        frequentGhosts := h.frequentGhosts
        mem_keys := fun x => by
          rw [hp.mem_iff, List.mem_cons, h.mem_keys, List.mem_append, List.mem_singleton, or_comm]
        size_le := by
          rw [← length_keys, hp.length_eq, List.length_cons, length_keys]
          exact hlt }
  | some p =>
    obtain ⟨w, c'⟩ := p
    obtain ⟨r, ht, rfl⟩ := get?_eq_push h.valid hg
    have hfrequent : r.frequent.length < r.capacity := by
      have hsize := h.size_le
      rw [ht.size, size, ← ht.within.capacity] at hsize
      omega
    -- the entry of the key has moved, and that is all
    have hp : (r.pushFrequent k w).keys.Perm c.keys :=
      (keys_pushFrequent_of_lt hfrequent k w).trans ht.keys.symm
    rw [fetch_of_get? hg] at hvalid ⊢
    exact
      { valid := hvalid
        recentGhosts := ht.recentGhosts.trans h.recentGhosts
        frequentGhosts := ht.frequentGhosts.trans h.frequentGhosts
        mem_keys := fun x => by
          rw [hp.mem_iff, h.mem_keys, List.mem_append, List.mem_singleton]
          exact (or_iff_left_of_imp fun he => he ▸ (h.mem_keys k).1 ht.mem).symm
        size_le := by
          rw [← length_keys, hp.length_eq, length_keys]
          exact ht.within.capacity ▸ h.size_le }

/-! ## One key after another -/

/-- The cache after keys were fetched one after another, `f` giving the values of those missed. -/
def fetchAll (f : κ → β) (c : Cache κ β) (ks : List κ) : Cache κ β :=
  ks.foldl (fun c k => c.fetch k (f k)) c

theorem valid_fetchAll (f : κ → β) (h : c.Valid) (ks : List κ) :
    (c.fetchAll f ks).Valid ∧ (c.fetchAll f ks).capacity = c.capacity := by
  induction ks generalizing c with
  | nil => exact ⟨h, rfl⟩
  | cons k ks ih =>
    obtain ⟨hvalid, hcap⟩ := valid_fetch h k (f k)
    exact (ih hvalid).imp_right fun he => he.trans hcap

theorem known_fetchAll_subset (f : κ → β) (h : c.Valid) (ks : List κ) :
    (c.fetchAll f ks).known ⊆ ks ++ c.known := by
  induction ks generalizing c with
  | nil => exact List.Subset.refl _
  | cons k ks ih =>
    obtain ⟨hvalid, -⟩ := valid_fetch h k (f k)
    intro x hx
    rcases List.mem_append.1 (ih hvalid hx) with hx | hx
    · exact List.mem_cons_of_mem k (List.mem_append_left _ hx)
    · rcases List.mem_cons.1 (known_fetch_subset h k (f k) hx) with rfl | hx
      · exact List.mem_cons_self
      · exact List.mem_cons_of_mem k (List.mem_append_right _ hx)

variable [DecidableEq κ]

omit [BEq κ] [LawfulBEq κ] in
theorem Holds.size_eq (h : c.Holds seen) : c.size = seen.toFinset.card := by
  rw [← length_keys, ← List.toFinset_card_of_nodup h.valid.nodup_keys]
  congr 1
  ext x
  rw [List.mem_toFinset, List.mem_toFinset, h.mem_keys]

/-- As long as there are no more keys than fit, no key is given up. -/
theorem Holds.fetchAll (f : κ → β) (h : c.Holds seen) {ks : List κ}
    (hfit : (seen ++ ks).toFinset.card ≤ c.capacity) : (c.fetchAll f ks).Holds (seen ++ ks) := by
  induction ks generalizing c seen with
  | nil => rwa [List.append_nil]
  | cons k ks ih =>
    rw [List.append_cons] at hfit ⊢
    refine ih (h.fetch k (f k) fun hk => ?_) ((valid_fetch h.valid k (f k)).2 ▸ hfit)
    rw [h.size_eq]
    calc seen.toFinset.card
      _ < (insert k seen.toFinset).card :=
        Finset.card_lt_card (Finset.ssubset_insert fun hm => hk (List.mem_toFinset.1 hm))
      _ ≤ (seen ++ [k] ++ ks).toFinset.card := by
        refine Finset.card_le_card fun x hx => ?_
        simp only [Finset.mem_insert, List.mem_toFinset, List.mem_append, List.mem_singleton] at hx ⊢
        exact .inl hx.symm
      _ ≤ c.capacity := hfit

end StackScript.Cache
