import Mathlib.Data.List.Induction
import StackScript.Proofs.Template.FirstError

/-!
# Histories of a map of bindings

A map is made by changes: single writes, writes that give back the value before them, and collecting
a list of pairs, which starts over. Each change is a row of events. What a name is bound to after a
history is what its latest write says (`get?_after_eq_some_iff`), and nothing else of the history
can be seen, neither by comparing maps nor by rendering a template with them
(`after_latest_writes`).
-/

set_option autoImplicit false

namespace StackScript

namespace Bindings

/-! ## Changes and events -/

/-- A step that changes a map. -/
inductive Change where
  | insert (name : String) (value : Word)
  /-- A write that gives back the value before it. -/
  | exchange (name : String) (value : Word)
  /-- Puts the map of a list of pairs in place of the map. -/
  | collect (pairs : List (String × Word))
  deriving DecidableEq

def Change.apply (b : Bindings) : Change → Bindings
  | .insert name value => b.insert name value
  | .exchange name value => (b.exchange name value).2
  | .collect pairs => ofList pairs

/-- The map after a history that begins with the empty map. -/
def after (cs : List Change) : Bindings := cs.foldl Change.apply empty

inductive Event where
  | clear
  | write (name : String) (value : Word)
  deriving DecidableEq

def Event.apply (b : Bindings) : Event → Bindings
  | .clear => empty
  | .write name value => b.insert name value

/-- What a change does to single names, in the order in which it does it. -/
def Change.events : Change → List Event
  | .insert name value => [.write name value]
  | .exchange name value => [.write name value]
  | .collect pairs => .clear :: pairs.map fun e => .write e.1 e.2

def events (cs : List Change) : List Event := cs.flatMap Change.events

/-- A row of events has a write of the value to the name, and behind it nothing that undoes it. -/
def Latest (es : List Event) (name : String) (value : Word) : Prop :=
  ∃ before behind, es = before ++ .write name value :: behind ∧ .clear ∉ behind ∧
    ∀ other, .write name other ∉ behind

/-- The event may change what the name is bound to. -/
def Event.concerns (name : String) : Event → Bool
  | .clear => true
  | .write written _ => name == written

/-- Neither comparing the maps nor rendering a template tells them apart. -/
def Alike (a b : Bindings) : Prop :=
  (a == b) = true ∧ ∀ t : Template, t.render a = t.render b

variable {a b : Bindings} {cs ds : List Change} {e : Event} {es before between behind : List Event}
  {name : String} {value : Word}

theorem Change.apply_eq_foldl (b : Bindings) (c : Change) :
    c.apply b = c.events.foldl Event.apply b := by
  cases c with
  | insert name value => rfl
  | exchange name value => exact b.exchange_snd name value
  | collect pairs => simp [Change.apply, Change.events, Event.apply, ofList, List.foldl_map]

theorem after_eq_foldl (cs : List Change) : after cs = (events cs).foldl Event.apply empty := by
  have happly : Change.apply = fun b c => c.events.foldl Event.apply b := by
    funext b c
    exact c.apply_eq_foldl b
  rw [after, events, List.foldl_flatMap, happly]

/-! ## What an event changes -/

theorem get?_apply_congr (h : a.get? name = b.get? name) (e : Event) :
    (e.apply a).get? name = (e.apply b).get? name := by
  cases e <;> simp [Event.apply, get?_insert, h]

theorem get?_apply_of_not_concerns (h : e.concerns name = false) (b : Bindings) :
    (e.apply b).get? name = b.get? name := by
  cases e with
  | clear => simp [Event.concerns] at h
  | write written value =>
    have hne : name ≠ written := by simpa [Event.concerns] using h
    simp [Event.apply, get?_insert, hne]

theorem get?_foldl_congr (h : a.get? name = b.get? name) (es : List Event) :
    (es.foldl Event.apply a).get? name = (es.foldl Event.apply b).get? name := by
  induction es generalizing a b with
  | nil => exact h
  | cons e es ih => exact ih (get?_apply_congr h e)

theorem get?_foldl_filter (b : Bindings) (es : List Event) (name : String) :
    ((es.filter (Event.concerns name)).foldl Event.apply b).get? name =
      (es.foldl Event.apply b).get? name := by
  induction es generalizing b with
  | nil => rfl
  | cons e es ih =>
    rw [List.foldl_cons, ← ih]
    cases he : e.concerns name with
    | true => rw [List.filter_cons_of_pos he, List.foldl_cons]
    | false =>
      rw [List.filter_cons_of_neg (by simp [he])]
      exact get?_foldl_congr (get?_apply_of_not_concerns he b).symm _

theorem get?_foldl_of_write (h : .write name value ∈ es) (a b : Bindings) :
    (es.foldl Event.apply a).get? name = (es.foldl Event.apply b).get? name := by
  induction es generalizing a b with
  | nil => cases h
  | cons e es ih =>
    rcases List.mem_cons.1 h with rfl | h
    · exact get?_foldl_congr (by simp [Event.apply, get?_insert]) es
    · exact ih h _ _

/-! ## The latest write -/

theorem latest_append_singleton : Latest (es ++ [e]) name value ↔
    e = .write name value ∨ e.concerns name = false ∧ Latest es name value := by
  constructor
  · rintro ⟨before, behind, heq, hclear, hwrite⟩
    rcases behind.eq_nil_or_concat with rfl | ⟨behind, last, rfl⟩
    · exact .inl (List.head_eq_of_cons_eq (List.append_inj' heq rfl).2)
    · rw [List.concat_eq_append, ← List.cons_append, ← List.append_assoc] at heq
      obtain ⟨rfl, hlast⟩ := List.append_inj' heq rfl
      obtain rfl := List.head_eq_of_cons_eq hlast
      refine .inr ⟨?_, before, behind, rfl, fun hm => hclear (by simp [hm]),
        fun other hm => hwrite other (by simp [hm])⟩
      cases e with
      | clear => exact absurd (by simp) hclear
      | write written other =>
        have hne : written ≠ name := by
          rintro rfl
          exact hwrite other (by simp)
        simpa [Event.concerns] using hne.symm
  · rintro (rfl | ⟨he, before, behind, rfl, hclear, hwrite⟩)
    · exact ⟨es, [], rfl, List.not_mem_nil, fun _ => List.not_mem_nil⟩
    · refine ⟨before, behind ++ [e], by simp, fun hm => ?_, fun other hm => ?_⟩
      · rcases List.mem_append.1 hm with hm | hm
        · exact hclear hm
        · obtain rfl := List.mem_singleton.1 hm
          simp [Event.concerns] at he
      · rcases List.mem_append.1 hm with hm | hm
        · exact hwrite other hm
        · obtain rfl := List.mem_singleton.1 hm
          simp [Event.concerns] at he

theorem get?_foldl_eq_some_iff :
    (es.foldl Event.apply empty).get? name = some value ↔ Latest es name value := by
  induction es using List.reverseRecOn with
  | nil => simp [Latest]
  | append_singleton es e ih =>
    rw [latest_append_singleton, List.foldl_append, List.foldl_cons, List.foldl_nil, ← ih]
    cases e with
    | clear => simp [Event.apply, Event.concerns]
    | write written other =>
      by_cases hne : name = written
      · subst hne
        simp [Event.apply, Event.concerns, get?_insert]
      · simp [Event.apply, Event.concerns, get?_insert, hne, Ne.symm hne]

theorem get?_after_eq_some_iff :
    (after cs).get? name = some value ↔ Latest (events cs) name value := by
  rw [after_eq_foldl, get?_foldl_eq_some_iff]

/-! ## Maps that are alike -/

theorem alike_of_get? (h : ∀ name, a.get? name = b.get? name) : Alike a b :=
  ⟨beq_iff.2 h, fun _ => Template.render_congr fun name _ => h name⟩

theorem alike_of_latest
    (h : ∀ name value, Latest (events cs) name value ↔ Latest (events ds) name value) :
    Alike (after cs) (after ds) := by
  refine alike_of_get? fun name => Option.ext fun value => ?_
  rw [get?_after_eq_some_iff, get?_after_eq_some_iff, h]

theorem alike_of_filter (h : ∀ name, (events cs).filter (Event.concerns name) =
    (events ds).filter (Event.concerns name)) : Alike (after cs) (after ds) := by
  refine alike_of_get? fun name => ?_
  rw [after_eq_foldl, after_eq_foldl, ← get?_foldl_filter, h, get?_foldl_filter]

theorem alike_of_overwritten {later : Word}
    (hc : events cs = before ++ .write name value :: between ++ .write name later :: behind)
    (hd : events ds = before ++ between ++ .write name later :: behind) :
    Alike (after cs) (after ds) := by
  refine alike_of_get? fun x => ?_
  rw [after_eq_foldl, after_eq_foldl, hc, hd, List.append_assoc, List.append_assoc,
    List.cons_append, List.foldl_append, List.foldl_append, List.foldl_cons]
  by_cases hx : x = name
  · subst hx
    have hmem : .write x later ∈ between ++ .write x later :: behind := by simp
    exact get?_foldl_of_write hmem _ _
  · refine get?_foldl_congr (get?_apply_of_not_concerns ?_ _) _
    simpa [Event.concerns] using hx

/-- After any history, a name is bound to what was written to it last since the map was collected.
A write that gives a value back gives the one before it. Maps are equal if they bind all names
alike, and then templates are rendered alike: the order of writes to different names and writes
that were written over leave no trace. -/
theorem after_latest_writes :
    (∀ cs name value, (after cs).get? name = some value ↔ Latest (events cs) name value) ∧
    (∀ cs name, (after cs).get? name = none ↔ ∀ value, ¬ Latest (events cs) name value) ∧
    (∀ (b : Bindings) name value, (b.exchange name value).1 = b.get? name) ∧
    (∀ a b : Bindings, (a == b) = true ↔ ∀ name, a.get? name = b.get? name) ∧
    (∀ a b, (a == b) = true → Alike a b) ∧
    (∀ cs ds, (∀ name value, Latest (events cs) name value ↔ Latest (events ds) name value) →
      Alike (after cs) (after ds)) ∧
    (∀ cs ds, (∀ name, (events cs).filter (Event.concerns name) =
      (events ds).filter (Event.concerns name)) → Alike (after cs) (after ds)) ∧
    ∀ cs ds before between behind name value later,
      events cs = before ++ .write name value :: between ++ .write name later :: behind →
      events ds = before ++ between ++ .write name later :: behind →
      Alike (after cs) (after ds) := by
  refine ⟨fun cs name value => get?_after_eq_some_iff, fun cs name => ?_, exchange_fst,
    fun a b => beq_iff, fun a b h => alike_of_get? (beq_iff.1 h), fun cs ds => alike_of_latest,
    fun cs ds => alike_of_filter, fun cs ds _ _ _ _ _ _ => alike_of_overwritten⟩
  rw [Option.eq_none_iff_forall_ne_some]
  exact forall_congr' fun value => not_congr get?_after_eq_some_iff

/-- Two orders of the pairs of a collection, and a pair more that is written over. -/
theorem after_latest_writes_collect :
    let ordered := [Change.insert "z" 4, .collect [("x", 1), ("y", 2)]]
    let swapped := [Change.insert "z" 4, .collect [("y", 2), ("x", 1)]]
    let doubled := [Change.insert "z" 4, .collect [("x", 7), ("y", 2), ("x", 1)]]
    ((after ordered == after swapped) = true ∧ Alike (after ordered) (after swapped)) ∧
    ((∀ name value, Latest (events doubled) name value ↔ Latest (events ordered) name value) ∧
      Alike (after doubled) (after ordered)) ∧
    ((∀ name, (events ordered).filter (Event.concerns name) =
      (events swapped).filter (Event.concerns name)) ∧ Alike (after ordered) (after swapped)) ∧
    events doubled = [.write "z" 4, .clear] ++ .write "x" 7 :: [.write "y" 2] ++ [.write "x" 1] ∧
    events swapped = [.write "z" 4, .clear] ++ [.write "y" 2] ++ [.write "x" 1] ∧
    Alike (after doubled) (after swapped) := by
  intro ordered swapped doubled
  obtain ⟨-, -, -, -, hbeq, hlatest, hfilter, hover⟩ := after_latest_writes
  have hequal : (after ordered == after swapped) = true := by decide +kernel
  have hsame : ∀ name value,
      Latest (events doubled) name value ↔ Latest (events ordered) name value := by
    have hget : (after doubled == after ordered) = true := by decide +kernel
    intro name value
    rw [← get?_after_eq_some_iff, beq_iff.1 hget, get?_after_eq_some_iff]
  have hconcern : ∀ name, (events ordered).filter (Event.concerns name) =
      (events swapped).filter (Event.concerns name) := by
    intro name
    by_cases hx : name = "x"
    · subst hx
      rfl
    · simp [ordered, swapped, events, Change.events, Event.concerns, List.filter_cons, hx]
  exact ⟨⟨hequal, hbeq _ _ hequal⟩, ⟨hsame, hlatest _ _ hsame⟩, ⟨hconcern, hfilter _ _ hconcern⟩,
    rfl, rfl, hover doubled swapped [.write "z" 4, .clear] [.write "y" 2] [] "x" 7 1 rfl rfl⟩

end Bindings

end StackScript
