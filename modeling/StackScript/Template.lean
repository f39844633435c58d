import StackScript.Template.Directive

/-!
# Templates

A template is program text with `%<name>d` fields. `Template.parse` reads a text into items up to
its end or its first malformed directive, `Template.placeholders` lists the names of the fields and
`Template.render` fills them in. Errors come in the order in which the text is read: a field with
no value before a malformed directive is reported first.
-/

set_option autoImplicit false

namespace StackScript

structure Malformed where
  /-- How many bytes of UTF-8 stand before the directive. -/
  offset : Nat
  reason : Directive.Reason
  deriving DecidableEq, Repr

inductive TemplateError where
  | missing (name : String)
  | malformed (directive : Malformed)
  deriving DecidableEq, Repr

def Malformed.message (m : Malformed) : String :=
  "malformed template at byte " ++ Numeral.text m.offset ++ ": " ++ m.reason.message

def TemplateError.message : TemplateError → String
  | .missing name => "missing template binding: " ++ name
  | .malformed directive => directive.message

structure Template where
  /-- The items before the first malformed directive. -/
  items : List Item
  malformed? : Option Malformed
  deriving DecidableEq

namespace Template

/-! ## Reading -/

def cons (i : Item) (t : Template) : Template := { t with items := i :: t.items }

/-- Reads what stands behind so many bytes of a template. -/
def ofChars (offset : Nat) : List Char → Template
  | [] => ⟨[], none⟩
  | c :: cs =>
    if c = '%' then
      match h : Directive.read cs with
      | .ok (i, rest) =>
        have : rest.length < cs.length := Directive.length_of_read h
        (ofChars (offset + i.width) rest).cons i
      | .error reason => ⟨[], some ⟨offset, reason⟩⟩
    else (ofChars (offset + (Item.char c).width) cs).cons (.char c)
termination_by cs => cs.length

def parse (text : String) : Template := ofChars 0 text.toList

variable {offset : Nat} {cs rest : List Char}

@[simp] theorem ofChars_nil : ofChars offset [] = ⟨[], none⟩ := by rw [ofChars]

theorem ofChars_char {c : Char} (h : c ≠ '%') (cs : List Char) :
    ofChars offset (c :: cs) = (ofChars (offset + (Item.char c).width) cs).cons (.char c) := by
  rw [ofChars, if_neg h]

theorem ofChars_directive {i : Item} (h : Directive.read cs = .ok (i, rest)) :
    ofChars offset ('%' :: cs) = (ofChars (offset + i.width) rest).cons i := by
  rw [ofChars, if_pos rfl]
  split <;> simp_all

theorem ofChars_malformed {reason : Directive.Reason} (h : Directive.read cs = .error reason) :
    ofChars offset ('%' :: cs) = ⟨[], some ⟨offset, reason⟩⟩ := by
  rw [ofChars, if_pos rfl]
  split <;> simp_all

/-! ## Fields -/

def names (t : Template) : List String := t.items.filterMap Item.name?

def placeholders (t : Template) : Except Malformed (List String) :=
  match t.malformed? with
  | some m => .error m
  | none => .ok t.names

/-! ## Rendering -/

/-- The text that a row of items stands for. The error is the first name that is not bound. -/
def showItems (b : Bindings) : List Item → Except String (List Char)
  | [] => .ok []
  | i :: is =>
    match i.shown? b with
    | .error name => .error name
    | .ok cs => (showItems b is).map (cs ++ ·)

def render (t : Template) (b : Bindings) : Except TemplateError String :=
  match showItems b t.items with
  | .error name => .error (.missing name)
  | .ok cs =>
    match t.malformed? with
    | some m => .error (.malformed m)
    | none => .ok (String.ofList cs)

end Template

end StackScript
