import StackScript.Proofs.Template.FirstError

/-!
# Templates behind one another

A text behind a template reads as the items of the template and, behind them, the items of the text
(`parse_writtenRow_append`). No directive of the template goes on into the text, and none is made up
of characters of both, although percent signs may meet and a name ends at the first closing bracket
of all that follows. So names, rendered texts and errors are those of the two parts one after the
other, with the place of a malformed directive counted from the front of the whole
(`parse_append_exact`).
-/

set_option autoImplicit false

namespace StackScript

/-- The report of a directive in a text with so many bytes in front. -/
def Malformed.shift (m : Malformed) (bytes : Nat) : Malformed :=
  { m with offset := m.offset + bytes }

/-- The error of a template with so many bytes in front. -/
def TemplateError.shift : TemplateError → Nat → TemplateError
  | missing name, _ => missing name
  | malformed m, bytes => malformed (m.shift bytes)

namespace Template

/-- A template with a row of items in front. -/
def prepend (is : List Item) (t : Template) : Template where
  items := is ++ t.items
  malformed? := t.malformed?.map (·.shift (is.map Item.width).sum)

variable {offset : Nat} {is : List Item}

/-! ## A row of items in front -/

/-- A text reads the same behind more bytes, but for where it is malformed. -/
theorem ofChars_add (offset bytes : Nat) (cs : List Char) :
    ofChars (offset + bytes) cs =
      let t := ofChars offset cs
      ⟨t.items, t.malformed?.map (·.shift bytes)⟩ := by
  induction offset, cs using ofChars.induct with
  | case1 offset => rw [ofChars_nil, ofChars_nil]; rfl
  | case2 offset cs i rest h _ ih =>
    rw [ofChars_directive h, ofChars_directive h, Nat.add_right_comm, ih]
    rfl
  | case3 offset cs reason h => rw [ofChars_malformed h, ofChars_malformed h]; rfl
  | case4 offset c cs hc ih =>
    rw [ofChars_char hc, ofChars_char hc, Nat.add_right_comm, ih]
    rfl

theorem parse_writtenRow_append (his : ∀ i ∈ is, i.WellFormed) (text : String) :
    parse (Item.writtenRow is ++ text) = (parse text).prepend is := by
  unfold parse Item.writtenRow
  rw [String.toList_append, String.toList_ofList, ofChars_append his, ofChars_add]
  rfl

theorem placeholders_prepend (is : List Item) (t : Template) :
    (t.prepend is).placeholders =
      match t.placeholders with
      | .ok names => .ok (is.filterMap Item.name? ++ names)
      | .error m => .error (m.shift (is.map Item.width).sum) := by
  unfold placeholders prepend
  cases t.malformed? with
  | none => exact congrArg Except.ok List.filterMap_append
  | some m => rfl

theorem showItems_append (b : Bindings) (is js : List Item) :
    showItems b (is ++ js) =
      match showItems b is with
      | .error name => .error name
      | .ok cs => (showItems b js).map (cs ++ ·) := by
  induction is with
  | nil => cases hj : showItems b js <;> simp [showItems, hj, Except.map]
  | cons i is ih =>
    rw [List.cons_append, showItems, showItems, ih]
    cases i.shown? b with
    | error name => rfl
    | ok cs =>
      cases showItems b is with
      | error name => rfl
      | ok ds => cases showItems b js <;> simp [Except.map]

theorem render_prepend (is : List Item) (t : Template) (b : Bindings) :
    (t.prepend is).render b =
      match showItems b is, t.render b with
      | .error name, _ => .error (.missing name)
      | .ok cs, .ok text => .ok (String.ofList cs ++ text)
      | .ok _, .error e => .error (e.shift (is.map Item.width).sum) := by
  unfold render prepend
  rw [showItems_append]
  cases showItems b is with
  | error name => rfl
  | ok cs =>
    cases showItems b t.items with
    | error name => rfl
    | ok ds =>
      cases t.malformed? with
      | some m => rfl
      | none => simp [Except.map]

/-! ## Texts behind one another -/

theorem render_writtenRow_eq (his : ∀ i ∈ is, i.WellFormed) (b : Bindings) :
    (parse (Item.writtenRow is)).render b =
      match showItems b is with
      | .error name => .error (.missing name)
      | .ok cs => .ok (String.ofList cs) := by
  rw [parse_writtenRow his]
  unfold render
  cases showItems b is <;> rfl

/-- A text behind a template has its names, its rendered text and its errors behind those of the
template, and the place of a malformed directive is moved by the size of the template. A template
itself has no error but a name without a value, which is reported first. -/
theorem parse_append_exact (s t : String) (b : Bindings) (names : List String)
    (hs : (parse s).placeholders = .ok names) :
    (parse (s ++ t)).placeholders =
        (match (parse t).placeholders with
        | .ok names' => .ok (names ++ names')
        | .error m => .error (m.shift s.utf8ByteSize)) ∧
      (parse (s ++ t)).render b =
        (match (parse s).render b, (parse t).render b with
        | .error e, _ => .error e
        | .ok u, .ok v => .ok (u ++ v)
        | .ok _, .error e => .error (e.shift s.utf8ByteSize)) ∧
      ∀ e, (parse s).render b = .error e →
        ∃ name ∈ names, b.get? name = none ∧ e = .missing name := by
  obtain ⟨is, his, rfl, rfl⟩ := (placeholders_parse_eq_ok_iff s names).1 hs
  rw [Item.utf8ByteSize_writtenRow]
  refine ⟨?_, ?_, fun e he => ?_⟩
  · rw [parse_writtenRow_append his, placeholders_prepend]
  · rw [parse_writtenRow_append his, render_prepend, render_writtenRow_eq his]
    cases showItems b is with
    | error name => rfl
    | ok cs => cases (parse t).render b <;> rfl
  · rw [render_writtenRow_eq his, showItems_eq] at he
    cases hf : b.firstUnbound? (is.filterMap Item.name?) with
    | none =>
      rw [hf] at he
      cases he
    | some name =>
      rw [hf] at he
      cases he
      obtain ⟨hmem, hnone⟩ := Bindings.of_firstUnbound?_eq_some hf
      exact ⟨name, hmem, hnone, rfl⟩

/-- Percent signs meet at the seam, and a bracket behind it closes a name only in the second text,
whose last directive is malformed. -/
theorem parse_append_exact_percentSigns :
    let s := "→%<a>d%%"
    let t := "%%<%<b>d%<c"
    let b := Bindings.ofList [("a", 1)]
    let b' := Bindings.ofList [("b", 2), ("a", 1)]
    (parse s).placeholders = .ok ["a"] ∧
      (parse (s ++ t)).placeholders = .error ⟨18, .unterminated⟩ ∧
      (parse (s ++ t)).render b = .error (.missing "b") ∧
      (parse (s ++ t)).render b' = .error (.malformed ⟨18, .unterminated⟩) := by
  intro s t b b'
  have his : parse s = ⟨[.char '→', .field "a", .percent], none⟩ :=
    parse_eq_iff.2 ⟨by decide, [], by decide, .nothing⟩
  have hs : (parse s).placeholders = .ok ["a"] := by
    rw [his]
    decide
  have ht : parse t = ⟨[.percent, .char '<', .field "b"], some ⟨8, .unterminated⟩⟩ :=
    parse_eq_iff.2 ⟨by decide, "%<c".toList, by decide, .directive rfl⟩
  obtain ⟨hp, hr, -⟩ := parse_append_exact s t b ["a"] hs
  obtain ⟨-, hr', -⟩ := parse_append_exact s t b' ["a"] hs
  refine ⟨hs, ?_, ?_, ?_⟩
  · rw [hp, ht]
    decide
  · rw [hr, his, ht]
    decide
  · rw [hr', his, ht]
    decide

end Template

end StackScript
