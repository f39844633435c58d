import StackScript.Cache

/-!
# The entries of a cache

A cache makes up no entry. After a look-up the entries are entries from before, and a value that
was found is one of them (`of_get?_eq_some`); after `put k v` they are entries from before and
`(k, v)` (`mem_entries_put`). Making room only takes away: what is left in either list stands there
in the order from before (`recent_makeRoom_sublist`, `frequent_makeRoom_sublist`).
-/

set_option autoImplicit false

namespace StackScript.Cache

variable {κ β : Type} {c c' : Cache κ β} {k : κ} {v : β} {e : κ × β}

theorem mem_entries : e ∈ c.entries ↔ e ∈ c.recent ∨ e ∈ c.frequent := List.mem_append

/-! ## Making room -/

theorem recent_demote_sublist (c : Cache κ β) (b : Bool) :
    (c.demote b).recent.Sublist c.recent := by
  unfold demote
  split
  · unfold demoteRecent
    split
    · exact .refl _
    · exact List.dropLast_sublist _
  · unfold demoteFrequent
    split <;> exact .refl _

theorem frequent_demote_sublist (c : Cache κ β) (b : Bool) :
    (c.demote b).frequent.Sublist c.frequent := by
  unfold demote
  split
  · unfold demoteRecent
    split <;> exact .refl _
  · unfold demoteFrequent
    split
    · exact .refl _
    · exact List.dropLast_sublist _

theorem recent_makeRoom_sublist (c : Cache κ β) (b : Bool) :
    (c.makeRoom b).recent.Sublist c.recent := by
  unfold makeRoom
  split
  · exact recent_demote_sublist c b
  · exact .refl _

theorem frequent_makeRoom_sublist (c : Cache κ β) (b : Bool) :
    (c.makeRoom b).frequent.Sublist c.frequent := by
  unfold makeRoom
  split
  · exact frequent_demote_sublist c b
  · exact .refl _

/-- Wherever the target was moved to, making room adds no entry. -/
theorem mem_entries_of_makeRoom {t : Nat} {b : Bool}
    (h : e ∈ ({ c with target := t }.makeRoom b).entries) : e ∈ c.entries := by
  rw [mem_entries] at h ⊢
  rcases h with h | h
  · have hr := (recent_makeRoom_sublist _ b).subset h
    exact .inl hr
  · have hf := (frequent_makeRoom_sublist _ b).subset h
    exact .inr hf

/-! ## Taking in -/

theorem mem_entries_of_push_recent {n : Nat} {as bs : List (κ × β)}
    (h : e ∈ pushFront n (k, v) as ++ bs) : e = (k, v) ∨ e ∈ as ++ bs := by
  rw [List.mem_append] at h ⊢
  rcases h with h | h
  · exact (mem_of_mem_pushFront h).imp_right .inl
  · exact .inr (.inr h)

theorem mem_entries_of_push_frequent {n : Nat} {as bs : List (κ × β)}
    (h : e ∈ as ++ pushFront n (k, v) bs) : e = (k, v) ∨ e ∈ as ++ bs := by
  rw [List.mem_append] at h ⊢
  rcases h with h | h
  · exact .inr (.inl h)
  · exact (mem_of_mem_pushFront h).imp_right .inr

/-- In each of the three cases the entries are those of the cache with room made and the new one. -/
theorem mem_entries_put [BEq κ] (h : e ∈ (c.put k v).entries) : e = (k, v) ∨ e ∈ c.entries := by
  unfold put at h
  split at h
  · exact (mem_entries_of_push_frequent h).imp_right mem_entries_of_makeRoom
  · split at h
    · exact (mem_entries_of_push_frequent h).imp_right mem_entries_of_makeRoom
    · exact (mem_entries_of_push_recent h).imp_right mem_entries_of_makeRoom

/-! ## Looking up -/

theorem mem_of_lookup [BEq κ] [LawfulBEq κ] {es : List (κ × β)} (h : es.lookup k = some v) :
    (k, v) ∈ es := by
  obtain ⟨front, back, rfl, -⟩ := List.lookup_eq_some_iff.1 h
  simp

/-- A look-up that finds a value gives an entry, and leaves no entry that was not there. -/
theorem of_get?_eq_some [BEq κ] [LawfulBEq κ] (h : c.get? k = some (v, c')) :
    (k, v) ∈ c.entries ∧ ∀ e ∈ c'.entries, e ∈ c.entries := by
  unfold get? at h
  split at h
  · rename_i w hl
    cases h
    have hk := mem_of_lookup hl
    refine ⟨mem_entries.2 (.inl hk), fun e he => mem_entries.2 ?_⟩
    rcases mem_entries.1 he with he | he
    · exact .inl (List.eraseP_sublist.subset he)
    · rcases mem_of_mem_pushFront he with rfl | he
      · exact .inl hk
      · exact .inr he
  · split at h
    · rename_i w hl
      cases h
      have hk := mem_of_lookup hl
      refine ⟨mem_entries.2 (.inr hk), fun e he => mem_entries.2 ?_⟩
      rcases mem_entries.1 he with he | he
      · exact .inl he
      · rcases List.mem_cons.1 he with rfl | he
        · exact .inr hk
        · exact .inr (List.eraseP_sublist.subset he)
    · cases h

end StackScript.Cache
