import StackScript.Proofs.Code.Printing
import StackScript.Proofs.Template.Grammar

/-!
# Fields as literals

In a template whose fields stand apart, filling in a field is putting a literal in its place. Such a
template is a `Layout` of slots, each a token without fields or one field. It renders as the same
layout with the fields' values in it (`render_layout`), and the decimal text of a value is a token
that reads as the literal of that value (`Code.ofTokens_shown`). So the code of the rendered text is
found by going through the slots (`Code.ofSlots`), and how far that gets does not depend on the
values (`code_of_rendered`).
-/

set_option autoImplicit false

namespace StackScript

/-! ## Texts without percent signs -/

namespace Item

/-- The items of a text: all its characters stand for themselves. -/
def ofText (t : String) : List Item := t.toList.map .char

theorem flatMap_ofText {f : Item → List Char} (h : ∀ c, f (char c) = [c]) (t : String) :
    (ofText t).flatMap f = t.toList := by
  rw [ofText, List.flatMap_map]
  simp only [h, List.flatMap_singleton']

theorem filterMap_name_ofText (t : String) : (ofText t).filterMap name? = [] := by
  rw [ofText, List.filterMap_map]
  exact List.filterMap_eq_nil_iff.2 fun c _ => rfl

theorem wellFormed_ofText {t : String} (h : '%' ∉ t.toList) : ∀ i ∈ ofText t, i.WellFormed := by
  refine List.forall_mem_map.2 fun c hc => ?_
  show c ≠ '%'
  rintro rfl
  exact h hc

end Item

theorem IsBlank.percent_not_mem {w : String} (h : IsBlank w) : '%' ∉ w.toList := fun hc =>
  absurd (h _ hc) (by decide)

/-! ## Slots -/

/-- What stands by itself in a template: a text without fields, or a field. -/
inductive Slot where
  | text (t : String)
  | field (name : String)
  deriving DecidableEq

namespace Slot

def WellFormed : Slot → Prop
  | text t => IsToken t ∧ '%' ∉ t.toList
  | field name => name ≠ "" ∧ '>' ∉ name.toList

instance : DecidablePred WellFormed
  | .text t => inferInstanceAs (Decidable (IsToken t ∧ '%' ∉ t.toList))
  | .field name => inferInstanceAs (Decidable (name ≠ "" ∧ '>' ∉ name.toList))

def name? : Slot → Option String
  | text _ => none
  | field name => some name

/-- A slot as it stands in the template. -/
def written : Slot → String
  | text t => t
  | field name => "%<" ++ name ++ ">d"

/-- A slot as it stands in the rendered text. -/
def shown (value : String → Word) : Slot → String
  | text t => t
  | field name => (value name).text

/-- The command that a slot is read as: the literal of its value if it is a field. -/
def command? (value : String → Word) : Slot → Option Command
  | text t => (classify t).toOption
  | field name => some (.literal (value name))

def items : Slot → List Item
  | text t => Item.ofText t
  | field name => [.field name]

variable {s : Slot} {value : String → Word}

theorem written_items (s : Slot) : s.items.flatMap Item.written = s.written.toList := by
  cases s with
  | text t => exact Item.flatMap_ofText (fun _ => rfl) t
  | field name => simp [items, written, Item.written]

theorem filled_items (s : Slot) :
    s.items.flatMap (Item.filled value) = (s.shown value).toList := by
  cases s with
  | text t => exact Item.flatMap_ofText (fun _ => rfl) t
  | field name => simp [items, shown, Item.filled]

theorem filterMap_name_items (s : Slot) : s.items.filterMap Item.name? = s.name?.toList := by
  cases s with
  | text t => exact Item.filterMap_name_ofText t
  | field name => rfl

theorem wellFormed_items (h : s.WellFormed) : ∀ i ∈ s.items, i.WellFormed := by
  cases s with
  | text t => exact Item.wellFormed_ofText h.2
  | field name => exact List.forall_mem_singleton.2 h

theorem isToken_shown (h : s.WellFormed) : IsToken (s.shown value) := by
  cases s with
  | text t => exact h.1
  | field name => exact (value name).isToken_text

end Slot

/-! ## Rendering -/

namespace Layout

variable {l : Layout Slot} {value : String → Word} {b : Bindings}

/-- The items of a template in which slots stand apart. -/
def items (l : Layout Slot) : List Item :=
  Item.ofText l.lead ++ l.row.flatMap fun p => p.1.items ++ Item.ofText p.2

theorem flatMap_items {f : Item → List Char} {g : Slot → String} (hc : ∀ c, f (.char c) = [c])
    (hs : ∀ s : Slot, s.items.flatMap f = (g s).toList) (l : Layout Slot) :
    l.items.flatMap f = (l.text g).toList := by
  rw [items, List.flatMap_append, List.flatMap_assoc, Item.flatMap_ofText hc, toList_text]
  simp only [List.flatMap_append, hs, Item.flatMap_ofText hc]

theorem writtenRow_items (l : Layout Slot) : Item.writtenRow l.items = l.text Slot.written := by
  unfold Item.writtenRow
  rw [flatMap_items (fun _ => rfl) Slot.written_items, String.ofList_toList]

theorem wellFormed_items (h : ∀ s ∈ l.things, s.WellFormed) : ∀ i ∈ l.items, i.WellFormed := by
  intro i hi
  rcases List.mem_append.1 hi with hi | hi
  · exact Item.wellFormed_ofText l.isBlank_lead.percent_not_mem i hi
  · obtain ⟨p, hp, hi⟩ := List.mem_flatMap.1 hi
    rcases List.mem_append.1 hi with hi | hi
    · exact Slot.wellFormed_items (h _ (List.mem_map_of_mem hp)) i hi
    · exact Item.wellFormed_ofText (l.isBlank_gap p hp).percent_not_mem i hi

theorem filterMap_name_items (l : Layout Slot) :
    l.items.filterMap Item.name? = l.things.filterMap Slot.name? := by
  unfold items things
  rw [List.filterMap_append, Item.filterMap_name_ofText, List.nil_append]
  induction l.row with
  | nil => rfl
  | cons p row ih =>
    rw [List.flatMap_cons, List.filterMap_append, List.filterMap_append, ih,
      Slot.filterMap_name_items, Item.filterMap_name_ofText, List.map_cons, List.filterMap_cons]
    cases p.1.name? <;> rfl

/-- The layout is kept by rendering. -/
theorem render_layout (h : ∀ s ∈ l.things, s.WellFormed)
    (hb : ∀ name ∈ l.things.filterMap Slot.name?, b.get? name = some (value name)) :
    (Template.parse (l.text Slot.written)).render b = .ok (l.text (Slot.shown value)) := by
  rw [← writtenRow_items, Template.render_writtenRow (wellFormed_items h)
    (by rwa [filterMap_name_items]), flatMap_items (fun _ => rfl) Slot.filled_items,
    String.ofList_toList]

end Layout

/-! ## Code -/

namespace Code

variable {value : String → Word}

/-- Goes through slots and reads each: a field as the literal of its value, a text as a token. The
first text that cannot be read is the bad token. -/
def ofSlots (value : String → Word) : List Slot → Code
  | [] => ⟨[], none⟩
  | .field name :: slots => (ofSlots value slots).cons (.literal (value name))
  | .text t :: slots =>
    match classify t with
    | .ok command => (ofSlots value slots).cons command
    | .error _ => ⟨[], some t⟩

theorem ofTokens_shown (value : String → Word) (slots : List Slot) :
    ofTokens (slots.map (Slot.shown value)) = ofSlots value slots := by
  induction slots with
  | nil => rfl
  | cons s slots ih =>
    rw [List.map_cons]
    cases s with
    | field name =>
      have hc : classify (value name).text = .ok (.literal (value name)) :=
        classify_text (.literal (value name))
      show ofTokens ((value name).text :: _) = _
      rw [ofTokens_cons_ok hc, ih]
      rfl
    | text t =>
      show ofTokens (t :: _) = _
      cases hc : classify t with
      | ok command =>
        rw [ofTokens_cons_ok hc, ih]
        simp only [ofSlots, hc]
      | error e =>
        rw [ofTokens_cons_error hc]
        simp only [ofSlots, hc]

/-- The values of fields decide nothing but the literals: how many slots are read, what the others
are read as and which text is the bad token is the same for all values. -/
theorem ofSlots_front (slots : List Slot) : ∃ (front : List Slot) (bad? : Option String),
    front ++ bad?.toList.map .text <+: slots ∧ ∀ value,
      (ofSlots value slots).commands.map some = front.map (Slot.command? value) ∧
        (ofSlots value slots).badToken = bad? := by
  induction slots with
  | nil => exact ⟨[], none, List.prefix_refl _, fun _ => ⟨rfl, rfl⟩⟩
  | cons s slots ih =>
    obtain ⟨front, bad?, hp, h⟩ := ih
    cases s with
    | field name =>
      refine ⟨.field name :: front, bad?, ?_, fun value => ⟨?_, (h value).2⟩⟩
      · exact List.cons_prefix_cons.2 ⟨rfl, hp⟩
      · exact List.cons_eq_cons.2 ⟨rfl, (h value).1⟩
    | text t =>
      cases hc : classify t with
      | error e =>
        refine ⟨[], some t, List.cons_prefix_cons.2 ⟨rfl, List.nil_prefix⟩, fun value => ?_⟩
        simp [ofSlots, hc]
      | ok command =>
        refine ⟨.text t :: front, bad?, List.cons_prefix_cons.2 ⟨rfl, hp⟩, fun value => ?_⟩
        simp only [ofSlots, hc]
        refine ⟨List.cons_eq_cons.2 ⟨?_, (h value).1⟩, (h value).2⟩
        simp [Slot.command?, hc, Except.toOption]

end Code

namespace Template

/-- The code of a rendered template is found slot by slot, each field a literal; and the values of
the fields decide nothing but these literals. -/
theorem code_of_rendered (l : Layout Slot) (b : Bindings) (value : String → Word)
    (hl : ∀ s ∈ l.things, s.WellFormed)
    (hb : ∀ name ∈ l.things.filterMap Slot.name?, b.get? name = some (value name)) :
    (∃ source, (parse (l.text Slot.written)).render b = .ok source ∧
      Code.ofSource source = Code.ofSlots value l.things) ∧
    ∃ (front : List Slot) (bad? : Option String),
      front ++ bad?.toList.map .text <+: l.things ∧ ∀ value',
        (Code.ofSlots value' l.things).commands.map some = front.map (Slot.command? value') ∧
          (Code.ofSlots value' l.things).badToken = bad? := by
  refine ⟨⟨_, l.render_layout hl hb, ?_⟩, Code.ofSlots_front l.things⟩
  rw [Code.ofSource, l.tokenize_text fun s hs => Slot.isToken_shown (hl s hs)]
  exact Code.ofTokens_shown value l.things

/-- Names with a blank and a percent sign, white space of several kinds, the least word for a name
that stands in two places, and a token that is no command. -/
theorem code_of_rendered_leastWord :
    let l : Layout Slot :=
      { lead := " "
        row := [(.field "a b", "\u3000"), (.text "PUSH", "\n\t"), (.field "%<", " "),
          (.text "MULT", "\u0085"), (.text "007", " "), (.field "a b", "")]
        isBlank_lead := by decide
        isBlank_gap := by decide
        gap_ne_empty := by decide }
    let b := Bindings.ofList [("%<", -1), ("a b", Int64.minValue)]
    let value : String → Word := fun name => if name = "%<" then -1 else Int64.minValue
    (∀ s ∈ l.things, s.WellFormed) ∧
      (∀ name ∈ l.things.filterMap Slot.name?, b.get? name = some (value name)) ∧
      ∃ source, (parse " %<a b>d\u3000PUSH\n\t%<%<>d MULT\u0085007 %<a b>d").render b = .ok source ∧
        Code.ofSource source =
          ⟨[.literal Int64.minValue, .op .push, .literal (-1), .op .mult], some "007"⟩ := by
  intro l b value
  have hl : ∀ s ∈ l.things, s.WellFormed := by decide
  have hb : ∀ name ∈ l.things.filterMap Slot.name?, b.get? name = some (value name) := by decide
  refine ⟨hl, hb, ?_⟩
  obtain ⟨source, hr, hc⟩ := (code_of_rendered l b value hl hb).1
  refine ⟨source, ?_, ?_⟩
  · rw [← hr]
    congr 2
  · rw [hc]
    decide

end Template

end StackScript
