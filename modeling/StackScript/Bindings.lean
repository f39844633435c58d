import StackScript.Word

/-!
# Bindings

A finite map from names to words. `get?_insert` says what a write does to every name; `exchange` is
a write that gives back the value before it (`exchange_fst`, `exchange_snd`). Two maps are equal
under `==` exactly when every name has the same value in both (`beq_iff`), so neither the order of
the writes nor a value written over is seen.
-/

set_option autoImplicit false

namespace StackScript

structure Bindings where
  /-- The bound names with their values, the name written last in front. -/
  entries : List (String × Word) := []
  nodup : (entries.map Prod.fst).Nodup := by simp

namespace Bindings

def empty : Bindings := {}

/-- The value of a name, if it is bound. -/
def get? (b : Bindings) (name : String) : Option Word := b.entries.lookup name

/-- The map in which a name has a new value. -/
def insert (b : Bindings) (name : String) (value : Word) : Bindings where
  entries := (name, value) :: b.entries.filter fun e => e.1 != name
  nodup := by
    rw [List.map_cons, List.nodup_cons]
    constructor
    · simp
    · exact b.nodup.sublist (List.filter_sublist.map _)

/-- Writes a name and gives back the value that it had before, if it was bound. -/
def exchange (b : Bindings) (name : String) (value : Word) : Option Word × Bindings :=
  let split := b.entries.partition fun e => e.1 == name
  (split.1.head?.map Prod.snd,
    { entries := (name, value) :: split.2
      nodup := by
        simp only [split, List.partition_eq_filter_filter, List.map_cons, List.nodup_cons]
        constructor
        · simp
        · exact b.nodup.sublist (List.filter_sublist.map _) })

/-- The map of a list of pairs. The last pair of a name counts. -/
def ofList (pairs : List (String × Word)) : Bindings :=
  pairs.foldl (fun b e => b.insert e.1 e.2) empty

/-- Every name that `a` binds has the same value in `b`. -/
def submap (a b : Bindings) : Bool := a.entries.all fun e => b.get? e.1 == some e.2

instance : BEq Bindings where
  beq a b := a.submap b && b.submap a

/-! ## Values of names -/

@[simp] theorem get?_empty (name : String) : empty.get? name = none := rfl

theorem lookup_filter_ne (es : List (String × Word)) {x name : String} (h : x ≠ name) :
    (es.filter fun e => e.1 != name).lookup x = es.lookup x := by
  induction es with
  | nil => rfl
  | cons e es ih =>
    rw [List.lookup_cons]
    by_cases he : e.1 = name
    · rw [List.filter_cons_of_neg (by simp [he]), ih, beq_false_of_ne (he ▸ h)]
    · rw [List.filter_cons_of_pos (by simp [he]), List.lookup_cons, ih]

theorem get?_insert (b : Bindings) (name : String) (value : Word) (x : String) :
    (b.insert name value).get? x = if x = name then some value else b.get? x := by
  unfold get? insert
  rw [List.lookup_cons]
  split
  · simp_all
  · rename_i h
    rw [if_neg (by simpa using h), lookup_filter_ne _ (by simpa using h)]

theorem lookup_eq_map_find? (es : List (String × Word)) (name : String) :
    es.lookup name = (es.find? fun e => e.1 == name).map Prod.snd := by
  induction es with
  | nil => rfl
  | cons e es ih =>
    rw [List.lookup_cons, List.find?_cons, BEq.comm]
    cases e.1 == name with
    | true => rfl
    | false => exact ih

theorem exchange_fst (b : Bindings) (name : String) (value : Word) :
    (b.exchange name value).1 = b.get? name := by
  simp only [exchange, List.partition_eq_filter_filter, List.head?_filter]
  exact (lookup_eq_map_find? b.entries name).symm

theorem exchange_snd (b : Bindings) (name : String) (value : Word) :
    (b.exchange name value).2 = b.insert name value := by
  simp [exchange, insert, List.partition_eq_filter_filter, Function.comp_def, bne]

/-! ## Equality -/

theorem mem_iff_lookup {es : List (String × Word)} (h : (es.map Prod.fst).Nodup) {name : String}
    {value : Word} : (name, value) ∈ es ↔ es.lookup name = some value := by
  induction es with
  | nil => simp
  | cons e es ih =>
    rw [List.map_cons, List.nodup_cons] at h
    rw [List.mem_cons, ih h.2, List.lookup_cons]
    by_cases he : name = e.1
    · subst he
      have hn : es.lookup e.1 ≠ some value := fun hl =>
        h.1 (List.mem_map.2 ⟨(e.1, value), (ih h.2).2 hl, rfl⟩)
      simp [hn, Prod.ext_iff, eq_comm]
    · rw [beq_false_of_ne he]
      simp [he, Prod.ext_iff]

theorem mem_entries_iff {b : Bindings} {name : String} {value : Word} :
    (name, value) ∈ b.entries ↔ b.get? name = some value :=
  mem_iff_lookup b.nodup

theorem submap_iff {a b : Bindings} :
    a.submap b = true ↔ ∀ name value, a.get? name = some value → b.get? name = some value := by
  simp only [submap, List.all_eq_true, beq_iff_eq, Prod.forall, mem_entries_iff]

theorem beq_iff {a b : Bindings} : (a == b) = true ↔ ∀ name, a.get? name = b.get? name := by
  simp only [BEq.beq, Bool.and_eq_true, submap_iff]
  constructor
  · rintro ⟨hab, hba⟩ name
    cases ha : a.get? name with
    | none =>
      cases hb : b.get? name with
      | none => rfl
      | some value => rw [hba name value hb] at ha; cases ha
    | some value => exact (hab name value ha).symm
  · intro h
    exact ⟨fun name value => by rw [h name]; exact id, fun name value => by rw [h name]; exact id⟩

end Bindings

end StackScript
