import StackScript.Proofs.Template.Grammar

/-!
# The first error of a template

A template is read from left to right, and what is wrong with it is reported in that order. The
items in front of the first malformed directive are the one row of well-formed items behind which
none can be read (`items_parse_iff`). The names of its fields are looked up one after another
(`showItems_eq`): the first without a value is reported, also where a malformed directive stands
behind it, and else the text is rendered unless it has a malformed directive (`render_first_error`).
-/

set_option autoImplicit false

namespace StackScript

namespace Bindings

/-- The first of these names that has no value. -/
def firstUnbound? (b : Bindings) (names : List String) : Option String :=
  names.find? fun name => (b.get? name).isNone

/-- The value of a name, zero if it has none. -/
def value (b : Bindings) (name : String) : Word := (b.get? name).getD 0

variable {b : Bindings} {name : String} {names : List String}

theorem firstUnbound?_cons_bound {a : Word} (h : b.get? name = some a) (names : List String) :
    b.firstUnbound? (name :: names) = b.firstUnbound? names := by
  simp [firstUnbound?, h]

theorem firstUnbound?_cons_unbound (h : b.get? name = none) (names : List String) :
    b.firstUnbound? (name :: names) = some name := by
  simp [firstUnbound?, h]

theorem of_firstUnbound?_eq_some (h : b.firstUnbound? names = some name) :
    name ∈ names ∧ b.get? name = none := by
  unfold firstUnbound? at h
  exact ⟨List.mem_of_find?_eq_some h, by simpa using List.find?_some h⟩

theorem firstUnbound?_eq_none_iff :
    b.firstUnbound? names = none ↔ ∀ name ∈ names, (b.get? name).isSome := by
  simp [firstUnbound?, List.find?_eq_none, Option.isSome_iff_ne_none]

end Bindings

namespace Template

variable {offset : Nat} {cs rest : List Char} {is : List Item} {i : Item} {b b' : Bindings}
  {t : Template}

/-! ## Where reading ends -/

/-- No well-formed item stands at the front of a text. -/
def Unreadable (rest : List Char) : Prop := ∀ i : Item, i.WellFormed → ¬ i.written <+: rest

theorem unreadable_nil : Unreadable [] := by
  intro i _ h
  have hw : i.written = [] := List.prefix_nil.1 h
  cases i <;> simp [Item.written] at hw

theorem unreadable_percent_iff :
    Unreadable ('%' :: cs) ↔ ∃ reason, Directive.read cs = .error reason := by
  constructor
  · intro h
    cases hr : Directive.read cs with
    | error reason => exact ⟨reason, rfl⟩
    | ok p =>
      obtain ⟨hi, hcs⟩ := Directive.read_eq_ok_iff.1 hr
      exact absurd ⟨p.2, hcs.symm⟩ (h p.1 hi)
  · rintro ⟨reason, hr⟩ i hi ⟨rest, hcs⟩
    rw [Directive.read_eq_ok_iff.2 ⟨hi, hcs.symm⟩] at hr
    cases hr

/-- Reading ends where nothing more can be read. -/
theorem unread_iff : (∃ malformed?, Unread offset malformed? rest) ↔ Unreadable rest := by
  constructor
  · rintro ⟨_, _ | h⟩
    · exact unreadable_nil
    · exact unreadable_percent_iff.2 ⟨_, h⟩
  · intro h
    cases rest with
    | nil => exact ⟨none, .nothing⟩
    | cons c cs =>
      have hc : c = '%' := by
        by_contra hc
        exact h (.char c) hc ⟨cs, rfl⟩
      subst hc
      obtain ⟨reason, hr⟩ := unreadable_percent_iff.1 h
      exact ⟨some ⟨offset, reason⟩, .directive hr⟩

/-- The items of a text are the row of well-formed items behind which nothing can be read. -/
theorem items_parse_iff (text : String) (is : List Item) :
    (parse text).items = is ↔ (∀ i ∈ is, i.WellFormed) ∧
      ∃ rest, text.toList = is.flatMap Item.written ++ rest ∧ Unreadable rest := by
  constructor
  · rintro rfl
    obtain ⟨his, rest, hcs, hu⟩ := parse_sound text
    exact ⟨his, rest, hcs, unread_iff.1 ⟨_, hu⟩⟩
  · rintro ⟨his, rest, hcs, hu⟩
    obtain ⟨malformed?, hm⟩ := unread_iff.2 hu
    have ht : parse text = ⟨is, malformed?⟩ := parse_eq_iff.2 ⟨his, rest, hcs, hm⟩
    rw [ht]

/-! ## Looking names up -/

/-- The items are shown with the values of their names, unless a name has none. -/
theorem showItems_eq (b : Bindings) (is : List Item) :
    showItems b is =
      match b.firstUnbound? (is.filterMap Item.name?) with
      | some name => .error name
      | none => .ok (is.flatMap (Item.filled b.value)) := by
  induction is with
  | nil => rfl
  | cons i is ih =>
    rw [showItems, ih, List.flatMap_cons]
    cases i with
    | char c =>
      rw [List.filterMap_cons_none rfl]
      cases b.firstUnbound? (is.filterMap Item.name?) <;> rfl
    | percent =>
      rw [List.filterMap_cons_none rfl]
      cases b.firstUnbound? (is.filterMap Item.name?) <;> rfl
    | field name =>
      rw [List.filterMap_cons_some (show (Item.field name).name? = some name from rfl)]
      cases hv : b.get? name with
      | none =>
        rw [Bindings.firstUnbound?_cons_unbound hv]
        simp only [Item.shown?, hv]
      | some a =>
        have hf : (Item.field name).filled b.value = a.text.toList := by
          simp [Item.filled, Bindings.value, hv]
        rw [Bindings.firstUnbound?_cons_bound hv, hf]
        simp only [Item.shown?, hv]
        cases b.firstUnbound? (is.filterMap Item.name?) <;> rfl

theorem render_eq (t : Template) (b : Bindings) :
    t.render b =
      match b.firstUnbound? t.names with
      | some name => .error (.missing name)
      | none =>
        match t.placeholders with
        | .error m => .error (.malformed m)
        | .ok _ => .ok (String.ofList (t.items.flatMap (Item.filled b.value))) := by
  unfold render placeholders names
  rw [showItems_eq]
  cases b.firstUnbound? (t.items.filterMap Item.name?) with
  | some name => rfl
  | none => cases t.malformed? <;> rfl

/-- A template is rendered if all its directives can be read and all their names have values. -/
theorem render_eq_ok_iff (t : Template) (b : Bindings) :
    (∃ s, t.render b = .ok s) ↔
      ∃ names, t.placeholders = .ok names ∧ ∀ name ∈ names, (b.get? name).isSome := by
  rw [render_eq]
  constructor
  · rintro ⟨s, hs⟩
    cases hb : b.firstUnbound? t.names with
    | some name => simp [hb] at hs
    | none =>
      cases hp : t.placeholders with
      | error m => simp [hb, hp] at hs
      | ok names =>
        obtain ⟨-, rfl⟩ := placeholders_eq_ok_iff.1 hp
        exact ⟨t.names, rfl, Bindings.firstUnbound?_eq_none_iff.1 hb⟩
  · rintro ⟨names, hp, hb⟩
    obtain ⟨-, rfl⟩ := placeholders_eq_ok_iff.1 hp
    rw [Bindings.firstUnbound?_eq_none_iff.2 hb, hp]
    exact ⟨_, rfl⟩

theorem shown?_congr (h : ∀ name ∈ i.name?, b.get? name = b'.get? name) :
    i.shown? b = i.shown? b' := by
  cases i with
  | char c => rfl
  | percent => rfl
  | field name =>
    have hn : b.get? name = b'.get? name := h name rfl
    simp only [Item.shown?, hn]

theorem showItems_congr (h : ∀ i ∈ is, i.shown? b = i.shown? b') :
    showItems b is = showItems b' is := by
  induction is with
  | nil => rfl
  | cons i is ih =>
    rw [List.forall_mem_cons] at h
    rw [showItems, showItems, h.1, ih h.2]

theorem render_congr (h : ∀ name ∈ t.names, b.get? name = b'.get? name) :
    t.render b = t.render b' := by
  have hi : ∀ i ∈ t.items, i.shown? b = i.shown? b' := fun i hi =>
    shown?_congr fun name hn => h name (List.mem_filterMap.2 ⟨i, hi, hn⟩)
  unfold render
  rw [showItems_congr hi]

/-! ## Errors in the order of reading -/

/-- Rendering reports the first name without a value among the fields in front of the first
malformed directive, and else what the list of placeholders reports. So a text is rendered exactly
if its placeholders are listed and have values, and nothing but the values of these names counts. -/
theorem render_first_error (text : String) :
    let t := parse text
    (∀ is, t.items = is ↔ (∀ i ∈ is, i.WellFormed) ∧
      ∃ rest, text.toList = is.flatMap Item.written ++ rest ∧ Unreadable rest) ∧
    (∀ b : Bindings, t.render b =
      match b.firstUnbound? (t.items.filterMap Item.name?) with
      | some name => .error (.missing name)
      | none =>
        match t.placeholders with
        | .error m => .error (.malformed m)
        | .ok _ => .ok (String.ofList (t.items.flatMap (Item.filled b.value)))) ∧
    (∀ b : Bindings, (∃ s, t.render b = .ok s) ↔
      ∃ names, t.placeholders = .ok names ∧ ∀ name ∈ names, (b.get? name).isSome) ∧
    ∀ b b' : Bindings, (∀ name ∈ t.items.filterMap Item.name?, b.get? name = b'.get? name) →
      t.render b = t.render b' :=
  ⟨items_parse_iff text, render_eq _, render_eq_ok_iff _, fun _ _ h => render_congr h⟩

/-- A field without a value, a malformed directive and one more field, in this order. The name of
the last field is never looked up. -/
theorem render_first_error_bothKinds :
    let t := parse "ü%<a>d %<b>d%d %<c>d"
    let b := Bindings.ofList [("a", 1)]
    let b' := Bindings.ofList [("b", -2), ("a", 1)]
    let b'' := Bindings.ofList [("c", 9), ("a", 1), ("b", -2)]
    (∀ name ∈ t.items.filterMap Item.name?, b'.get? name = b''.get? name) ∧
      t.render b = .error (.missing "b") ∧
      t.render b' = .error (.malformed ⟨13, .noDirective⟩) ∧
      t.render b'' = .error (.malformed ⟨13, .noDirective⟩) := by
  intro t b b' b''
  obtain ⟨-, hrender, -, hcongr⟩ := render_first_error "ü%<a>d %<b>d%d %<c>d"
  have ht : t = ⟨[.char 'ü', .field "a", .char ' ', .field "b"], some ⟨13, .noDirective⟩⟩ :=
    parse_eq_iff.2 ⟨by decide, "%d %<c>d".toList, by decide, .directive rfl⟩
  have hn : t.items.filterMap Item.name? = ["a", "b"] := by rw [ht]; rfl
  have hagree : ∀ name ∈ t.items.filterMap Item.name?, b'.get? name = b''.get? name := by
    rw [hn]
    decide
  have hmissing : b.firstUnbound? (t.items.filterMap Item.name?) = some "b" := by
    rw [hn]
    decide
  have hnone : b'.firstUnbound? (t.items.filterMap Item.name?) = none := by
    rw [hn]
    decide
  have hp : t.placeholders = .error ⟨13, .noDirective⟩ := by
    rw [ht]
    rfl
  have hmalformed : t.render b' = .error (.malformed ⟨13, .noDirective⟩) := by
    rw [hrender b', hnone, hp]
  refine ⟨hagree, ?_, hmalformed, ?_⟩
  · rw [hrender b, hmissing]
  · rw [← hcongr b' b'' hagree, hmalformed]

end Template

end StackScript
