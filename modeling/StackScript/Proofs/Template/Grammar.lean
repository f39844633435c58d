import Mathlib.Algebra.Ring.Nat
import StackScript.Proofs.Template.Directive
import StackScript.Template

/-!
# The grammar of templates

A template that begins with well-formed items reads as those items and what the text behind them
reads as (`ofChars_append`), and what is read from a text is written in it, up to the end or to the
first directive that cannot be read (`parse_eq_iff`). So the names of a template are given exactly
when it is a row of well-formed items, and rendering such a row puts every item's own text in its
place (`parse_exact`).
-/

set_option autoImplicit false

namespace StackScript

/-- The text of an item when a field has the value that `value` gives its name. -/
def Item.filled (value : String → Word) : Item → List Char
  | char c => [c]
  | percent => ['%']
  | field name => (value name).text.toList

def Item.plain (c : Char) : Item := if c = '%' then percent else char c

/-- A text with every percent sign doubled. -/
def doublePercents (s : String) : String :=
  String.ofList (s.toList.flatMap fun c => if c = '%' then ['%', '%'] else [c])

/-! ## Widths -/

theorem Item.utf8ByteSize_written (i : Item) :
    (String.ofList i.written).utf8ByteSize = i.width := by
  cases i with
  | char c =>
    show (String.ofList [c]).utf8ByteSize = c.utf8Size
    rw [← String.singleton_eq_ofList, String.utf8ByteSize_singleton]
  | percent => rfl
  | field name =>
    have hw : String.ofList (field name).written = "%<" ++ name ++ ">d" := by
      apply String.toList_injective
      simp [written]
    rw [hw, String.utf8ByteSize_append, String.utf8ByteSize_append, width]
    show 2 + name.utf8ByteSize + 2 = name.utf8ByteSize + 4
    omega

theorem Item.utf8ByteSize_writtenRow (is : List Item) :
    (writtenRow is).utf8ByteSize = (is.map width).sum := by
  induction is with
  | nil => rfl
  | cons i is ih =>
    have hw : writtenRow (i :: is) = String.ofList i.written ++ writtenRow is := by
      simp [writtenRow]
    rw [hw, String.utf8ByteSize_append, utf8ByteSize_written, ih, List.map_cons, List.sum_cons]

namespace Template

variable {offset : Nat} {cs rest : List Char} {is : List Item} {i : Item} {text : String}
  {malformed? : Option Malformed} {t : Template} {ns : List String} {b : Bindings}
  {value : String → Word}

/-! ## Reading -/

theorem ofChars_item (hi : i.WellFormed) (rest : List Char) :
    ofChars offset (i.written ++ rest) = (ofChars (offset + i.width) rest).cons i := by
  -- all other items begin with a percent sign
  by_cases hc : ∃ c, i = .char c
  · obtain ⟨c, rfl⟩ := hc
    exact ofChars_char hi rest
  · obtain ⟨cs, h⟩ : ∃ cs, '%' :: cs = i.written ++ rest := by
      cases i with
      | char c => exact absurd ⟨c, rfl⟩ hc
      | percent => exact ⟨_, rfl⟩
      | field name => exact ⟨_, rfl⟩
    rw [← h]
    exact ofChars_directive (Directive.read_eq_ok_iff.2 ⟨hi, h⟩)

theorem ofChars_append (his : ∀ i ∈ is, i.WellFormed) (rest : List Char) :
    ofChars offset (is.flatMap Item.written ++ rest) =
      let t := ofChars (offset + (is.map Item.width).sum) rest
      ⟨is ++ t.items, t.malformed?⟩ := by
  induction is generalizing offset with
  | nil => rfl
  | cons i is ih =>
    rw [List.forall_mem_cons] at his
    rw [List.flatMap_cons, List.append_assoc, ofChars_item his.1, ih his.2, List.map_cons,
      List.sum_cons, Nat.add_assoc]
    rfl

/-- What may follow items that end behind so many bytes, by what is wrong with it. -/
inductive Unread (offset : Nat) : Option Malformed → List Char → Prop
  | nothing : Unread offset none []
  | directive {reason : Directive.Reason} {cs : List Char}
      (h : Directive.read cs = .error reason) :
      Unread offset (some ⟨offset, reason⟩) ('%' :: cs)

theorem ofChars_of_unread (h : Unread offset malformed? rest) :
    ofChars offset rest = ⟨[], malformed?⟩ := by
  cases h with
  | nothing => exact ofChars_nil
  | directive h => exact ofChars_malformed h

/-- The items that are read are well formed and written at the front of the text, and reading ends
behind as many bytes as they are wide. -/
theorem ofChars_sound (offset : Nat) (cs : List Char) :
    (∀ i ∈ (ofChars offset cs).items, i.WellFormed) ∧
      ∃ rest, cs = (ofChars offset cs).items.flatMap Item.written ++ rest ∧
        Unread (offset + ((ofChars offset cs).items.map Item.width).sum)
          (ofChars offset cs).malformed? rest := by
  induction offset, cs using ofChars.induct with
  | case1 offset =>
    rw [ofChars_nil]
    exact ⟨by simp, [], rfl, .nothing⟩
  | case2 offset cs i rest h _ ih =>
    obtain ⟨his, rest', hrest, hu⟩ := ih
    obtain ⟨hi, hcs⟩ := Directive.read_eq_ok_iff.1 h
    rw [ofChars_directive h]
    refine ⟨List.forall_mem_cons.2 ⟨hi, his⟩, rest', ?_, ?_⟩
    · rw [hcs]
      show _ = (i :: (ofChars _ rest).items).flatMap Item.written ++ rest'
      rw [List.flatMap_cons, List.append_assoc, ← hrest]
    · rw [Nat.add_assoc] at hu
      exact hu
  | case3 offset cs reason h =>
    rw [ofChars_malformed h]
    exact ⟨by simp, _, rfl, .directive h⟩
  | case4 offset c cs hc ih =>
    obtain ⟨his, rest, hrest, hu⟩ := ih
    rw [ofChars_char hc]
    refine ⟨List.forall_mem_cons.2 ⟨hc, his⟩, rest, congrArg (c :: ·) hrest, ?_⟩
    rw [Nat.add_assoc] at hu
    exact hu

theorem parse_eq_iff :
    parse text = ⟨is, malformed?⟩ ↔ (∀ i ∈ is, i.WellFormed) ∧
      ∃ rest, text.toList = is.flatMap Item.written ++ rest ∧
        Unread (is.map Item.width).sum malformed? rest := by
  constructor
  · intro h
    have hsound := ofChars_sound 0 text.toList
    rw [show ofChars 0 text.toList = ⟨is, malformed?⟩ from h, Nat.zero_add] at hsound
    exact hsound
  · intro h
    obtain ⟨his, rest, hcs, hu⟩ := h
    unfold parse
    rw [hcs, ofChars_append his, Nat.zero_add, ofChars_of_unread hu]
    exact congrArg (Template.mk · malformed?) (List.append_nil is)

theorem parse_sound (text : String) :
    (∀ i ∈ (parse text).items, i.WellFormed) ∧
      ∃ rest, text.toList = (parse text).items.flatMap Item.written ++ rest ∧
        Unread ((parse text).items.map Item.width).sum (parse text).malformed? rest :=
  parse_eq_iff.1 rfl

theorem parse_writtenRow (his : ∀ i ∈ is, i.WellFormed) :
    parse (Item.writtenRow is) = ⟨is, none⟩ := by
  refine parse_eq_iff.2 ⟨his, [], ?_, .nothing⟩
  rw [Item.writtenRow, String.toList_ofList, List.append_nil]

theorem placeholders_eq_ok_iff :
    t.placeholders = .ok ns ↔ t.malformed? = none ∧ t.names = ns := by
  unfold placeholders
  cases t.malformed? <;> simp

theorem placeholders_parse_eq_ok_iff (text : String) (ns : List String) :
    (parse text).placeholders = .ok ns ↔ ∃ is : List Item,
      (∀ i ∈ is, i.WellFormed) ∧ text = Item.writtenRow is ∧ ns = is.filterMap Item.name? := by
  constructor
  · intro h
    obtain ⟨hd, rfl⟩ := placeholders_eq_ok_iff.1 h
    obtain ⟨his, rest, hcs, hu⟩ := parse_sound text
    refine ⟨_, his, ?_, rfl⟩
    -- nothing is left unread where no directive is malformed
    rw [hd] at hu
    cases hu with
    | nothing =>
      rw [List.append_nil] at hcs
      unfold Item.writtenRow
      rw [← hcs, String.ofList_toList]
  · rintro ⟨is, his, rfl, rfl⟩
    rw [parse_writtenRow his]
    rfl

/-! ## Rendering -/

theorem shown?_eq_filled (h : ∀ name ∈ i.name?, b.get? name = some (value name)) :
    i.shown? b = .ok (i.filled value) := by
  cases i with
  | char c => rfl
  | percent => rfl
  | field name =>
    have hv : b.get? name = some (value name) := h name rfl
    simp only [Item.shown?, Item.filled, hv]

theorem showItems_eq_filled
    (h : ∀ name ∈ is.filterMap Item.name?, b.get? name = some (value name)) :
    showItems b is = .ok (is.flatMap (Item.filled value)) := by
  induction is with
  | nil => rfl
  | cons i is ih =>
    have hi : i.shown? b = .ok (i.filled value) := shown?_eq_filled fun name hn =>
      h name (List.mem_filterMap.2 ⟨i, List.mem_cons_self, hn⟩)
    have his : ∀ name ∈ is.filterMap Item.name?, b.get? name = some (value name) := by
      intro name hn
      obtain ⟨j, hj, hn⟩ := List.mem_filterMap.1 hn
      exact h name (List.mem_filterMap.2 ⟨j, List.mem_cons_of_mem i hj, hn⟩)
    unfold showItems
    rw [hi, ih his]
    rfl

theorem render_writtenRow (his : ∀ i ∈ is, i.WellFormed)
    (hb : ∀ name ∈ is.filterMap Item.name?, b.get? name = some (value name)) :
    (parse (Item.writtenRow is)).render b =
      .ok (String.ofList (is.flatMap (Item.filled value))) := by
  rw [parse_writtenRow his]
  unfold render
  rw [show (⟨is, none⟩ : Template).items = is from rfl, showItems_eq_filled hb]

/-! ## Texts without fields -/

theorem wellFormed_plain (c : Char) : (Item.plain c).WellFormed := by
  unfold Item.plain
  split
  · trivial
  · assumption

theorem name?_plain (c : Char) : (Item.plain c).name? = none := by
  unfold Item.plain
  split <;> rfl

theorem filled_plain (value : String → Word) (c : Char) : (Item.plain c).filled value = [c] := by
  unfold Item.plain
  split
  · subst c
    rfl
  · rfl

theorem writtenRow_plain (s : String) :
    Item.writtenRow (s.toList.map Item.plain) = doublePercents s := by
  unfold Item.writtenRow doublePercents
  rw [List.flatMap_map]
  congr 2
  funext c
  unfold Item.plain
  split <;> rfl

theorem render_doublePercents (s : String) (b : Bindings) :
    (parse (doublePercents s)).render b = .ok s := by
  have his : ∀ i ∈ s.toList.map Item.plain, i.WellFormed :=
    List.forall_mem_map.2 fun c _ => wellFormed_plain c
  have hnames : (s.toList.map Item.plain).filterMap Item.name? = [] := by
    rw [List.filterMap_map]
    exact List.filterMap_eq_nil_iff.2 fun c _ => name?_plain c
  have hfilled : (s.toList.map Item.plain).flatMap (Item.filled fun _ => 0) = s.toList := by
    rw [List.flatMap_map]
    simp only [filled_plain, List.flatMap_singleton']
  rw [← writtenRow_plain, render_writtenRow his (by rw [hnames]; simp), hfilled,
    String.ofList_toList]

/-! ## The grammar -/

/-- Exactly the rows of well-formed items are templates; each is rendered item by item, so a text
with its percent signs doubled renders as the text. -/
theorem parse_exact :
    (∀ (text : String) (ns : List String), (parse text).placeholders = .ok ns ↔
      ∃ is : List Item, (∀ i ∈ is, i.WellFormed) ∧ text = Item.writtenRow is ∧
        ns = is.filterMap Item.name?) ∧
    (∀ (is : List Item) (b : Bindings) (value : String → Word), (∀ i ∈ is, i.WellFormed) →
      (∀ name ∈ is.filterMap Item.name?, b.get? name = some (value name)) →
      (parse (Item.writtenRow is)).render b =
        .ok (String.ofList (is.flatMap (Item.filled value)))) ∧
    ∀ (s : String) (b : Bindings), (parse (doublePercents s)).render b = .ok s :=
  ⟨placeholders_parse_eq_ok_iff, fun _ _ _ his hb => render_writtenRow his hb,
    render_doublePercents⟩

/-- A name with a percent sign, a bracket, a blank and letters of more than one byte, beside runs of
percent signs. -/
theorem parse_exact_mixed :
    let is : List Item := [.percent, .percent, .field "a%< ü", .percent, .char 'd', .field "→",
      .field "a%< ü"]
    let b := Bindings.ofList [("→", 7), ("a%< ü", Int64.minValue)]
    (∀ i ∈ is, i.WellFormed) ∧
      (∀ name ∈ is.filterMap Item.name?,
        b.get? name = some (if name = "→" then 7 else Int64.minValue)) ∧
      Item.writtenRow is = "%%%%%<a%< ü>d%%d%<→>d%<a%< ü>d" ∧
      (parse "%%%%%<a%< ü>d%%d%<→>d%<a%< ü>d").placeholders = .ok ["a%< ü", "→", "a%< ü"] ∧
      (parse "%%%%%<a%< ü>d%%d%<→>d%<a%< ü>d").render b =
        .ok "%%-9223372036854775808%d7-9223372036854775808" := by
  intro is b
  have his : ∀ i ∈ is, i.WellFormed := by decide
  have hb : ∀ name ∈ is.filterMap Item.name?,
      b.get? name = some (if name = "→" then 7 else Int64.minValue) := by decide
  have hw : Item.writtenRow is = "%%%%%<a%< ü>d%%d%<→>d%<a%< ü>d" := by decide
  refine ⟨his, hb, hw, ?_, ?_⟩
  · exact (parse_exact.1 _ _).2 ⟨is, his, hw.symm, by decide⟩
  · rw [← hw, parse_exact.2.1 is b _ his hb]
    exact congrArg Except.ok (by decide)

end Template

end StackScript
