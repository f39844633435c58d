import StackScript.Proofs.Cache.Fetch

/-!
# Ghosts that are overrun

A ghost that comes back is taken off its list, but room is made first, and a key that has to leave
for it may become a ghost of the same list. If the list is full its oldest ghost is then lost, and
that may be the one that comes back: it is overrun (`Overruns`).

That needs a full cache and a full list of ghosts, so twice as many keys as the capacity
(`Overruns.two_mul_capacity_le`), and all of them were fetched before. With fewer keys no ghost is
overrun, in whatever order they are fetched (`not_overruns_fetchAll`). With as many it happens to
the first key as soon as all have been fetched one after another (`overruns_of_nodup`), unless the
cache is for one key only.
-/

set_option autoImplicit false

namespace StackScript.Cache

variable {κ β : Type} {c r : Cache κ β} {k x : κ} {v : β} {ks : List κ}

/-! ## Ghosts that are lost -/

theorem le_length_of_not_mem_pushFront {α : Type} {n : Nat} {a b : α} {as : List α} (h : b ∈ as)
    (hn : b ∉ pushFront n a as) : n ≤ as.length := by
  by_contra hlt
  rw [pushFront_of_lt (Nat.not_le.1 hlt)] at hn
  exact hn (List.mem_cons_of_mem a h)

theorem MakesRoom.full_of_lost_recent (h : c.MakesRoom r) (hx : x ∈ c.recentGhosts)
    (hr : x ∉ r.recentGhosts) : c.capacity ≤ c.size ∧ c.capacity ≤ c.recentGhosts.length := by
  cases h with
  | idle => exact absurd hx hr
  | recent full h =>
    have hle := le_length_of_not_mem_pushFront (h.recentGhosts ▸ hx) hr
    rw [h.recentGhosts, h.within.capacity] at hle
    exact ⟨full, hle⟩
  | frequent full h => exact absurd (h.recentGhosts ▸ hx) hr
  | declined => exact absurd hx hr

theorem MakesRoom.full_of_lost_frequent (h : c.MakesRoom r) (hx : x ∈ c.frequentGhosts)
    (hr : x ∉ r.frequentGhosts) : c.capacity ≤ c.size ∧ c.capacity ≤ c.frequentGhosts.length := by
  cases h with
  | idle => exact absurd hx hr
  | recent full h => exact absurd (h.frequentGhosts ▸ hx) hr
  | frequent full h =>
    have hle := le_length_of_not_mem_pushFront (h.frequentGhosts ▸ hx) hr
    rw [h.frequentGhosts, h.within.capacity] at hle
    exact ⟨full, hle⟩
  | declined => exact absurd hx hr

theorem length_known (c : Cache κ β) :
    c.known.length = c.size + c.recentGhosts.length + c.frequentGhosts.length := by
  rw [known_eq, List.length_append, List.length_append, length_keys]
  omega

section

variable [BEq κ]

/-- A key is missed that is a ghost, and making room for it pushes it off its list of ghosts before
it is taken from there. -/
def Overruns (c : Cache κ β) (k : κ) : Prop :=
  c.get? k = none ∧
    (k ∈ c.recentGhosts ∧ k ∉ c.roomForRecent.recentGhosts ∨
      k ∉ c.recentGhosts ∧ k ∈ c.frequentGhosts ∧ k ∉ c.roomForFrequent.frequentGhosts)

theorem Overruns.two_mul_capacity_le (h : c.Overruns k) (hc : c.Valid) :
    2 * c.capacity ≤ c.known.length := by
  rw [length_known]
  rcases h.2 with ⟨hk, hlost⟩ | ⟨-, hk, hlost⟩
  · obtain ⟨t, -, hroom⟩ := hc.makesRoom_recent
    obtain ⟨hfull, hghosts⟩ :
      c.capacity ≤ c.size ∧ c.capacity ≤ c.recentGhosts.length := hroom.full_of_lost_recent hk hlost
    omega
  · obtain ⟨t, -, hroom⟩ := hc.makesRoom_frequent
    obtain ⟨hfull, hghosts⟩ :
      c.capacity ≤ c.size ∧ c.capacity ≤ c.frequentGhosts.length :=
        hroom.full_of_lost_frequent hk hlost
    omega

/-! ## Fewer keys than twice the capacity -/

variable [LawfulBEq κ]

theorem known_fetchAll_empty (f : κ → β) (n : Nat) (ks : List κ) :
    ((empty n).fetchAll f ks).known ⊆ ks := by
  have h := known_fetchAll_subset f (valid_empty n : (empty n : Cache κ β).Valid) ks
  rwa [show (empty n : Cache κ β).known = [] from rfl, List.append_nil] at h

theorem not_overruns_fetchAll [DecidableEq κ] (f : κ → β) {n : Nat}
    (hfew : ks.toFinset.card < 2 * n) (k : κ) : ¬ ((empty n).fetchAll f ks).Overruns k := by
  intro h
  obtain ⟨hvalid, hcap⟩ := valid_fetchAll f (valid_empty n) ks
  have hn : ((empty n).fetchAll f ks).capacity = n := hcap
  have htwice := h.two_mul_capacity_le hvalid
  -- the known keys are distinct and all of them were fetched
  have hcount : ((empty n).fetchAll f ks).known.length ≤ ks.toFinset.card := by
    rw [← List.toFinset_card_of_nodup hvalid.nodup]
    refine Finset.card_le_card fun x hx => ?_
    rw [List.mem_toFinset] at hx ⊢
    exact known_fetchAll_empty f n ks hx
  omega

/-! ## As many keys as twice the capacity -/

/-- A cache that was asked once for each of some keys: the last ones are recent and those before
them are ghosts, in the order in which they came. -/
structure Queued (c : Cache κ β) (ks : List κ) : Prop where
  row : c.recent.map Prod.fst ++ c.recentGhosts = ks.reverse
  frequent : c.frequent = []
  frequentGhosts : c.frequentGhosts = []
  target : c.target = 0
  length_recent : c.recent.length = min c.capacity ks.length

omit [BEq κ] [LawfulBEq κ] in
theorem queued_empty (n : Nat) : (empty n : Cache κ β).Queued [] where
  row := rfl
  frequent := rfl
  frequentGhosts := rfl
  target := rfl
  length_recent := (Nat.min_zero n).symm

omit [BEq κ] [LawfulBEq κ] in
theorem Queued.length_recentGhosts (h : c.Queued ks) :
    c.recentGhosts.length = ks.length - min c.capacity ks.length := by
  have hrow := congrArg List.length h.row
  rw [List.length_append, List.length_map, List.length_reverse, h.length_recent] at hrow
  omega

omit [BEq κ] [LawfulBEq κ] in
theorem Queued.size (h : c.Queued ks) : c.size = min c.capacity ks.length := by
  rw [Cache.size, h.frequent, h.length_recent]
  rfl

omit [BEq κ] [LawfulBEq κ] in
theorem demoteRecent_row (hn : c.recent ≠ []) (hroom : c.recentGhosts.length < c.capacity) :
    c.demoteRecent.recent.map Prod.fst ++ c.demoteRecent.recentGhosts =
      c.recent.map Prod.fst ++ c.recentGhosts := by
  have hlast : c.recent = c.recent.dropLast ++ [c.recent.getLast hn] :=
    (List.dropLast_append_getLast hn).symm
  rw [demoteRecent_eq hn]
  simp only [pushRecentGhost, pushFront_of_lt hroom]
  conv_rhs => rw [hlast, List.map_append, List.append_assoc]
  rfl

omit [BEq κ] [LawfulBEq κ] in
/-- Making room keeps the row and leaves a place in `recent`. -/
theorem Queued.makeRoom (h : c.Queued ks) (hn : 0 < c.capacity) (hlt : ks.length < 2 * c.capacity) :
    let r := c.makeRoom false
    r.recent.map Prod.fst ++ r.recentGhosts = ks.reverse ∧
      r.recent.length + 1 = min c.capacity (ks.length + 1) ∧
      r.frequent = [] ∧ r.frequentGhosts = [] ∧ r.target = 0 ∧ r.capacity = c.capacity := by
  intro r
  have hlen := h.length_recent
  by_cases hfull : c.capacity ≤ ks.length
  · have hne : c.recent ≠ [] := List.ne_nil_of_length_pos (by omega)
    have hghosts := h.length_recentGhosts
    have hr : r = c.demoteRecent := by
      have hsize := h.size
      have htarget := h.target
      show c.makeRoom false = _
      unfold Cache.makeRoom demote
      rw [if_pos (by omega), if_pos ⟨by omega, .inl (by omega)⟩]
    rw [hr, demoteRecent_row hne (by omega), demoteRecent_eq hne]
    refine ⟨h.row, ?_, h.frequent, h.frequentGhosts, h.target, rfl⟩
    simp only [pushRecentGhost, List.length_dropLast]
    omega
  · have hr : r = c := if_neg (by rw [h.size]; omega)
    rw [hr]
    exact ⟨h.row, by omega, h.frequent, h.frequentGhosts, h.target, rfl⟩

/-- A new key comes in front of the row. -/
theorem Queued.fetch (h : c.Queued ks) (hk : k ∉ ks) (hn : 0 < c.capacity)
    (hlt : ks.length < 2 * c.capacity) (v : β) : (c.fetch k v).Queued (ks ++ [k]) := by
  have hrow : k ∉ c.recent.map Prod.fst ∧ k ∉ c.recentGhosts := by
    rw [← not_or, ← List.mem_append, h.row, List.mem_reverse]
    exact hk
  have hmissed : c.get? k = none := by
    rw [get?_eq_none_iff, mem_keys, h.frequent]
    simpa using hrow.1
  -- neither list of ghosts is longer than its share
  have hshare : ¬ c.capacity - c.target < c.recentGhosts.length := by
    rw [h.length_recentGhosts, h.target]
    omega
  have hput : c.put k v = (c.makeRoom false).pushRecent k v := by
    simp [put, takeNew, hrow.2, h.frequentGhosts, hshare, pushRecent]
  obtain ⟨hrow', hlen, hf, hg, ht, hcap⟩ := h.makeRoom hn hlt
  rw [fetch_of_missed hmissed, hput]
  have hplace : (c.makeRoom false).recent.length < (c.makeRoom false).capacity := by omega
  have hrecent : ((c.makeRoom false).pushRecent k v).recent = (k, v) :: (c.makeRoom false).recent :=
    pushFront_of_lt hplace _
  exact
    { row := by
        rw [hrecent, List.map_cons, List.reverse_append, ← hrow']
        rfl
      frequent := hf
      frequentGhosts := hg
      target := ht
      length_recent := by
        rw [hrecent, List.length_cons, List.length_append, hlen]
        exact congrArg (min · _) hcap.symm }

/-- By induction on the keys from the last one. -/
theorem queued_fetchAll (f : κ → β) {n : Nat} (hn : 0 < n) (hnodup : ks.Nodup)
    (hlen : ks.length ≤ 2 * n) : ((empty n).fetchAll f ks).Queued ks := by
  induction ks using List.reverseRecOn with
  | nil => exact queued_empty n
  | append_singleton ks k ih =>
    rw [List.length_append, List.length_singleton] at hlen
    obtain ⟨hnodup, -, hdisjoint⟩ := List.nodup_append.1 hnodup
    have hk : k ∉ ks := fun hk => hdisjoint k hk k (List.mem_singleton_self k) rfl
    have h := ih hnodup (by omega)
    have hcap : ((empty n).fetchAll f ks).capacity = n := (valid_fetchAll f (valid_empty n) ks).2
    have hstep : (empty n).fetchAll f (ks ++ [k]) = ((empty n).fetchAll f ks).fetch k (f k) :=
      List.foldl_append
    rw [hstep]
    exact h.fetch hk (by omega) (by omega) (f k)

omit [BEq κ] [LawfulBEq κ] in
/-- A full list loses its last element. -/
theorem last_not_mem_pushFront {a b : κ} {as : List κ} (h : (as ++ [b]).Nodup) (hab : b ≠ a) :
    b ∉ pushFront (as.length + 1) a (as ++ [b]) := by
  have hp : pushFront (as.length + 1) a (as ++ [b]) = a :: as := by simp [pushFront]
  rw [hp, List.mem_cons, not_or]
  exact ⟨hab, fun hb => (List.nodup_append.1 h).2.2 b hb b (List.mem_singleton_self b) rfl⟩

omit [BEq κ] [LawfulBEq κ] in
/-- Room for a recent ghost of a full row: the target is still below the number of recent keys. -/
theorem Queued.roomForRecent_eq (h : c.Queued ks) (hn : 2 ≤ c.capacity)
    (hlen : ks.length = 2 * c.capacity) :
    c.roomForRecent = { c with target := 1 }.demoteRecent := by
  have hrecent := h.length_recent
  have hsize : { c with target := 1 }.size = min c.capacity ks.length := h.size
  have htarget : min c.capacity (c.target + stride c.recentGhosts.length c.frequentGhosts.length) =
      1 := by
    rw [h.target, h.frequentGhosts, List.length_nil, stride, if_neg (Nat.not_lt_zero _)]
    exact Nat.min_eq_right (by omega)
  unfold roomForRecent Cache.makeRoom demote
  have hfull : { c with target := 1 }.capacity ≤ { c with target := 1 }.size := by
    simp only
    omega
  have habove : 1 < c.recent.length := by omega
  have hsome : 0 < c.recent.length := by omega
  rw [htarget, if_pos hfull, if_pos ⟨hsome, .inl habove⟩]

/-- When twice as many keys as the capacity have come one after another, the first of them is the
oldest ghost of a full list, and is overrun. -/
theorem overruns_of_nodup (f : κ → β) {n : Nat} (hn : 2 ≤ n) (hnodup : (k :: ks).Nodup)
    (hlen : (k :: ks).length = 2 * n) : ((empty n).fetchAll f (k :: ks)).Overruns k := by
  have h := queued_fetchAll f (by omega) hnodup (Nat.le_of_eq hlen)
  have hcap : ((empty n).fetchAll f (k :: ks)).capacity = n :=
    (valid_fetchAll f (valid_empty n) (k :: ks)).2
  generalize (empty n).fetchAll f (k :: ks) = c at h hcap
  subst hcap
  have hghosts := h.length_recentGhosts
  have hne : c.recentGhosts ≠ [] := List.ne_nil_of_length_pos (by omega)
  have hne' : c.recent ≠ [] := List.ne_nil_of_length_pos (by rw [h.length_recent]; omega)
  -- the first key stands at the end of the row
  obtain ⟨front, hfront⟩ : ∃ front, c.recentGhosts = front ++ [k] := by
    have hlast := congrArg List.getLast? h.row
    rw [List.getLast?_append_of_ne_nil _ hne, List.reverse_cons, List.getLast?_concat] at hlast
    exact List.getLast?_eq_some_iff.1 hlast
  have hrow : (c.recent.map Prod.fst ++ (front ++ [k])).Nodup := by
    rw [← hfront, h.row]
    exact List.nodup_reverse.2 hnodup
  obtain ⟨-, hnodup', hdisjoint⟩ := List.nodup_append.1 hrow
  have hk : ∀ x ∈ c.recent.map Prod.fst, x ≠ k := fun x hx => hdisjoint x hx k (by simp)
  refine ⟨get?_eq_none_iff.2 ?_, .inl ⟨by simp [hfront], ?_⟩⟩
  · rw [mem_keys, h.frequent, List.map_nil]
    exact fun hm => hm.elim (fun hm => hk k hm rfl) List.not_mem_nil
  · have hroom : ({ c with target := 1 } : Cache κ β).recent ≠ [] := hne'
    rw [h.roomForRecent_eq hn hlen, demoteRecent_eq hroom]
    show k ∉ pushFront c.capacity _ c.recentGhosts
    have hfull : c.capacity = front.length + 1 := by
      rw [hfront, List.length_append, List.length_singleton] at hghosts
      omega
    rw [hfront, hfull]
    refine last_not_mem_pushFront hnodup' (hk _ ?_).symm
    exact List.mem_map_of_mem (List.getLast_mem hne')

end

end StackScript.Cache
