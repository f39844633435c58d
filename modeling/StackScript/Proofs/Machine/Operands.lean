import Mathlib.Order.Nat
import StackScript.Proofs.Execution.Trace

/-!
# Where operands come from

What commands do to the height of the stack can be read off them, whatever the values are: a push
adds one, a command that takes an operand subtracts one, also if it fails then, and at height zero
nothing changes (`Machine.Effect`, `Machine.height_performAll`). The words on the stack are those
that the register held at the pushes that no command has matched so far
(`Machine.toList_performAll`).

A push is matched by the first command behind it that takes an operand and finds none that was
pushed in between. That is the point at which the commands behind the push overdraw: more of them
take operands than push (`Command.Overdraws`). `Command.taken` counts what commands take of a stack
that was there before.
-/

set_option autoImplicit false

namespace StackScript

/-- The opcode takes an operand off the stack. -/
def Opcode.consumes : Opcode → Bool
  | add | sub | mult | div | mod | pop => true
  | push | print => false

namespace Command

def pushes : Command → Bool
  | op .push => true
  | _ => false

def consumes : Command → Bool
  | literal _ => false
  | op opcode => opcode.consumes

/-- The height of a stack after a command. -/
def heightAfter (height : Nat) (command : Command) : Nat :=
  if command.pushes then height + 1
  else if command.consumes then height - 1
  else height

/-- More commands take an operand than push one. -/
def Overdraws (cs : List Command) : Prop := cs.countP pushes < cs.countP consumes

instance (cs : List Command) : Decidable (Overdraws cs) := inferInstanceAs (Decidable (_ < _))

/-- Commands that leave a stack at the height at which they find it, and never take a word that was
there before. -/
structure Balanced (cs : List Command) : Prop where
  front : ∀ n, ¬ Overdraws (cs.take n)
  even : cs.countP pushes = cs.countP consumes

/-- The command at `j` takes the word that the push at `i` has left. -/
structure Matches (cs : List Command) (i j : Nat) : Prop where
  lt : i < j
  push : cs[i]? = some (.op .push)
  consumes : cs[j]?.any consumes
  between : Balanced ((cs.take j).drop (i + 1))

/-- The word that the push at `i` has left is still there. -/
structure Unmatched (cs : List Command) (i : Nat) : Prop where
  push : cs[i]? = some (.op .push)
  unmatched : ∀ j, ¬ Matches cs i j

/-- How many words commands take that were on the stack before. -/
def taken : List Command → Nat
  | [] => 0
  | c :: cs => if c.pushes then taken cs - 1 else if c.consumes then taken cs + 1 else taken cs

variable {c : Command} {cs : List Command} {i j n : Nat}

theorem taken_cons (c : Command) (cs : List Command) : taken (c :: cs) =
    if c.pushes then taken cs - 1 else if c.consumes then taken cs + 1 else taken cs := rfl

/-! ## Overdrawing -/

theorem pushes_iff : c.pushes ↔ c = .op .push := by
  rcases c with value | opcode
  · simp [pushes]
  · cases opcode <;> simp [pushes]

theorem not_pushes_of_consumes (h : c.consumes) : c.pushes = false := by
  rcases c with value | opcode
  · rfl
  · cases opcode <;> first | rfl | cases h

theorem not_overdraws_nil : ¬ Overdraws [] := Nat.lt_irrefl 0

theorem take_succ_of_some (h : cs[j]? = some c) : cs.take (j + 1) = cs.take j ++ [c] := by
  rw [List.take_add_one, h]
  rfl

theorem countP_take_succ (p : Command → Bool) (h : cs[j]? = some c) :
    (cs.take (j + 1)).countP p = (cs.take j).countP p + if p c then 1 else 0 := by
  rw [take_succ_of_some h, List.countP_append, List.countP_singleton]

/-- Commands take at most so many words of a stack as the fronts of them take operands more often
than they push. -/
theorem taken_le_iff (h : Nat) : taken cs ≤ h ↔
    ∀ n, (cs.take n).countP consumes ≤ (cs.take n).countP pushes + h := by
  induction cs generalizing h with
  | nil => simp [taken]
  | cons c cs ih =>
    rw [← Nat.and_forall_add_one]
    simp only [List.take_zero, List.countP_nil, Nat.zero_le, true_and, List.take_succ_cons,
      List.countP_cons, taken]
    by_cases hc : c.consumes
    · simp only [not_pushes_of_consumes hc, hc, ↓reduceIte, Bool.false_eq_true, Nat.add_zero]
      cases h with
      | zero =>
        -- the command itself is a front that takes too much
        refine iff_of_false (by omega) fun hall => ?_
        simpa using hall 0
      | succ h => simp only [Nat.add_le_add_iff_right, ih, ← Nat.add_assoc]
    · by_cases hp : c.pushes
      · simp only [hp, hc, ↓reduceIte, Bool.false_eq_true, Nat.add_zero, Nat.sub_le_iff_le_add, ih,
          Nat.add_assoc, Nat.add_comm 1 h]
      · simp only [hp, hc, ↓reduceIte, Bool.false_eq_true, Nat.add_zero, ih]

theorem taken_eq_zero_iff : taken cs = 0 ↔ ∀ n, ¬ Overdraws (cs.take n) := by
  rw [← Nat.le_zero, taken_le_iff]
  simp [Overdraws]

theorem front_take_iff :
    (∀ n, ¬ Overdraws ((cs.take j).take n)) ↔ ∀ n ≤ j, ¬ Overdraws (cs.take n) := by
  simp only [List.take_take]
  constructor
  · intro h n hn
    simpa [Nat.min_eq_left hn] using h n
  · intro h n
    exact h _ (Nat.min_le_right n j)

/-- The first front that overdraws has balanced commands and then one that takes an operand. -/
theorem isLeast_overdraws_iff : IsLeast {n | Overdraws (cs.take n)} (j + 1) ↔
    Balanced (cs.take j) ∧ cs[j]?.any consumes := by
  cases hc : cs[j]? with
  | none =>
    have htake : cs.take (j + 1) = cs.take j := by
      rw [List.take_add_one, hc]
      exact List.append_nil _
    refine iff_of_false (fun h => ?_) (by simp)
    have hj : Overdraws (cs.take j) := htake ▸ h.1
    exact absurd (h.2 hj) (by omega)
  | some c =>
    have hp := countP_take_succ pushes hc
    have hq := countP_take_succ consumes hc
    rw [Option.any_some]
    constructor
    · rintro ⟨hover, hleast⟩
      have hbefore : ∀ n ≤ j, ¬ Overdraws (cs.take n) := fun n hn h =>
        absurd (hleast h) (by omega)
      have hj := hbefore j (Nat.le_refl j)
      change Overdraws (cs.take (j + 1)) at hover
      unfold Overdraws at hover hj
      have hcons : c.consumes := by
        by_contra hn
        rw [hp, hq, if_neg hn] at hover
        omega
      rw [hp, hq, if_pos hcons] at hover
      exact ⟨⟨front_take_iff.2 hbefore, by omega⟩, hcons⟩
    · rintro ⟨hb, hcons⟩
      have hpush : ¬ c.pushes := by simp [not_pushes_of_consumes hcons]
      refine ⟨?_, fun n hn => ?_⟩
      · show Overdraws (cs.take (j + 1))
        unfold Overdraws
        rw [hp, hq, if_neg hpush, if_pos hcons, hb.even]
        omega
      · by_contra hlt
        exact front_take_iff.1 hb.front n (by omega) hn

theorem exists_isLeast_overdraws (h : Overdraws (cs.take n)) :
    ∃ j < n, IsLeast {n | Overdraws (cs.take n)} (j + 1) := by
  have hex : ∃ n, Overdraws (cs.take n) := ⟨n, h⟩
  have hleast := Nat.isLeast_find hex
  cases hj : Nat.find hex with
  | zero =>
    rw [hj] at hleast
    exact absurd hleast.1 not_overdraws_nil
  | succ j =>
    rw [hj] at hleast
    exact ⟨j, hleast.2 h, hleast⟩

theorem exists_overdraws_iff : (∃ n, Overdraws (cs.take n)) ↔
    ∃ j, Balanced (cs.take j) ∧ cs[j]?.any consumes := by
  constructor
  · rintro ⟨n, hn⟩
    obtain ⟨j, -, hj⟩ := exists_isLeast_overdraws hn
    exact ⟨j, isLeast_overdraws_iff.1 hj⟩
  · rintro ⟨j, hj⟩
    exact ⟨j + 1, (isLeast_overdraws_iff.2 hj).1⟩

/-- A push is unmatched if the commands behind it take nothing from below. -/
theorem unmatched_iff :
    Unmatched cs i ↔ cs[i]? = some (.op .push) ∧ taken (cs.drop (i + 1)) = 0 := by
  have hmatch (k : Nat) : (cs.take (i + 1 + k)).drop (i + 1) = (cs.drop (i + 1)).take k := by
    rw [List.drop_take, Nat.add_sub_cancel_left]
  have hget (k : Nat) : (cs.drop (i + 1))[k]? = cs[i + 1 + k]? := List.getElem?_drop
  rw [taken_eq_zero_iff, ← not_exists, exists_overdraws_iff]
  constructor
  · rintro ⟨hpush, hu⟩
    refine ⟨hpush, ?_⟩
    rintro ⟨k, hb, hc⟩
    exact hu (i + 1 + k) ⟨by omega, hpush, hget k ▸ hc, (hmatch k).symm ▸ hb⟩
  · rintro ⟨hpush, hu⟩
    refine ⟨hpush, fun j hj => ?_⟩
    obtain ⟨k, rfl⟩ : ∃ k, j = i + 1 + k := ⟨j - (i + 1), by have := hj.lt; omega⟩
    exact hu ⟨k, hmatch k ▸ hj.between, (hget k).symm ▸ hj.consumes⟩

/-! ## Heights -/

theorem foldl_heightAfter (h : Nat) (cs : List Command) :
    cs.foldl heightAfter h + cs.countP consumes = h + cs.countP pushes + (taken cs - h) := by
  induction cs generalizing h with
  | nil => simp [taken]
  | cons c cs ih =>
    have hc := ih (heightAfter h c)
    rw [List.foldl_cons, List.countP_cons, List.countP_cons, taken]
    unfold heightAfter at hc ⊢
    by_cases hq : c.consumes
    · simp only [not_pushes_of_consumes hq, hq, ↓reduceIte, Bool.false_eq_true] at hc ⊢
      omega
    · by_cases hp : c.pushes
      · simp only [hp, hq, ↓reduceIte, Bool.false_eq_true] at hc ⊢
        omega
      · simp only [hp, hq, ↓reduceIte, Bool.false_eq_true] at hc ⊢
        omega

/-! ## Open pushes -/

/-- The positions of the pushes behind which nothing is taken from below. -/
def openPushes (cs : List Command) : List Nat :=
  (List.range cs.length).filter fun i => cs[i]? = some (.op .push) ∧ taken (cs.drop (i + 1)) = 0

theorem mem_openPushes : i ∈ openPushes cs ↔ Unmatched cs i := by
  unfold openPushes
  rw [List.mem_filter, List.mem_range, decide_eq_true_iff, unmatched_iff]
  refine and_iff_right_of_imp fun h => ?_
  exact (List.getElem?_eq_some_iff.1 h.1).1

theorem pairwise_openPushes (cs : List Command) : (openPushes cs).Pairwise (· < ·) :=
  List.pairwise_lt_range.filter _

theorem openPushes_cons (c : Command) (cs : List Command) :
    openPushes (c :: cs) =
      (if c.pushes ∧ taken cs = 0 then [0] else []) ++ (openPushes cs).map (· + 1) := by
  unfold openPushes
  rw [List.length_cons, List.range_succ_eq_map, List.filter_cons, List.filter_map]
  have htail : ((fun i => decide ((c :: cs)[i]? = some (.op .push) ∧
      taken ((c :: cs).drop (i + 1)) = 0)) ∘ Nat.succ) =
      fun i => decide (cs[i]? = some (.op .push) ∧ taken (cs.drop (i + 1)) = 0) := rfl
  rw [htail]
  by_cases h : c = .op .push ∧ taken cs = 0 <;> simp [pushes_iff, h]

end Command

/-! ## Steps -/

namespace Stack

variable {s r : Stack} {a : Word}

theorem pop?_eq_none_iff : s.pop? = none ↔ s.words = [] := by
  unfold pop?
  split <;> simp_all

theorem pop?_eq_some_iff : s.pop? = some (a, r) ↔ s.words = a :: r.words := by
  obtain ⟨words⟩ := r
  unfold pop?
  split <;> simp_all

theorem height_eq_zero_iff : s.height = 0 ↔ s.pop? = none := by
  rw [pop?_eq_none_iff, height, List.length_eq_zero_iff]

theorem height_of_pop? (h : s.pop? = some (a, r)) : s.height = r.height + 1 := by
  rw [height, pop?_eq_some_iff.1 h, List.length_cons, height]

end Stack

namespace Machine

open Command

/-- All that a command can do to a machine and its stack. -/
inductive Effect (m : Machine) (command : Command) : Machine × Outcome → Prop
  | keep {register : Word} {value : Option Word} (hp : command.pushes = false)
      (hc : command.consumes = false) : Effect m command (⟨register, m.stack⟩, .ok value)
  | push (h : command = .op .push) :
      Effect m command ({ m with stack := m.stack.push m.register }, .ok none)
  | empty (hc : command.consumes) (hs : m.stack.pop? = none) :
      Effect m command (m, .error .emptyStack)
  | pop {a register : Word} {s : Stack} (hc : command.consumes) (hs : m.stack.pop? = some (a, s)) :
      Effect m command (⟨register, s⟩, .ok none)
  | fault {a : Word} {s : Stack} {cause : Fault} (hc : command.consumes)
      (hs : m.stack.pop? = some (a, s)) :
      Effect m command (⟨m.register, s⟩, .error (.fault cause))

variable {division : Division} {m : Machine} {command : Command}

theorem effect_consume (f : Word → Except Fault Word) (hc : command.consumes) :
    Effect m command (m.consume f) := by
  cases hs : m.stack.pop? with
  | none =>
    rw [consume_empty f hs]
    exact .empty hc hs
  | some p =>
    obtain ⟨a, s⟩ := p
    cases hf : f a with
    | ok register =>
      rw [consume_ok hs hf]
      exact .pop hc hs
    | error cause =>
      rw [consume_fault hs hf]
      exact .fault hc hs

theorem exists_consume {opcode : Opcode} (h : opcode.consumes) (division : Division) (m : Machine) :
    ∃ f, m.execute division opcode = m.consume f := by
  cases opcode with
  | push => cases h
  | print => cases h
  | pop => exact ⟨.ok, rfl⟩
  | _ => exact ⟨_, rfl⟩

theorem effect_perform (division : Division) (m : Machine) (command : Command) :
    Effect m command (m.perform division command) := by
  cases command with
  | literal value => exact .keep rfl rfl
  | op opcode =>
    by_cases hc : opcode.consumes
    · obtain ⟨f, hf⟩ := exists_consume hc division m
      show Effect m (.op opcode) (m.execute division opcode)
      rw [hf]
      exact effect_consume f hc
    · cases opcode with
      | push => exact .push rfl
      | print => exact .keep rfl rfl
      | _ => exact absurd rfl hc

theorem height_perform (division : Division) (m : Machine) (command : Command) :
    (m.perform division command).1.stack.height = heightAfter m.stack.height command := by
  have he := effect_perform division m command
  generalize m.perform division command = p at he
  unfold heightAfter
  cases he with
  | keep hp hc => simp [hp, hc]
  | push h => simp [h, pushes]
  | empty hc hs => simp [not_pushes_of_consumes hc, Stack.height_eq_zero_iff.2 hs]
  | pop hc hs => simp [not_pushes_of_consumes hc, hc, Stack.height_of_pop? hs]
  | fault hc hs => simp [not_pushes_of_consumes hc, hc, Stack.height_of_pop? hs]

theorem emptyStack_iff : (m.perform division command).2 = .error .emptyStack ↔
    command.consumes ∧ m.stack.height = 0 := by
  have he := effect_perform division m command
  generalize m.perform division command = p at he
  cases he with
  | keep hp hc => simp [hc]
  | push h => simp [h, consumes, Opcode.consumes]
  | empty hc hs => simp [hc, Stack.height_eq_zero_iff.2 hs]
  | pop hc hs => simp [Stack.height_of_pop? hs]
  | fault hc hs => simp [Stack.height_of_pop? hs]

theorem perform_of_emptyStack (h : (m.perform division command).2 = .error .emptyStack) :
    (m.perform division command).1 = m := by
  have he := effect_perform division m command
  generalize m.perform division command = p at he h
  cases he with
  | empty hc hs => rfl
  | _ => cases h

/-- A fault removes the top of the stack and nothing else. -/
theorem perform_of_fault {cause : Fault}
    (h : (m.perform division command).2 = .error (.fault cause)) :
    ∃ top, m.stack.pop? = some (top, (m.perform division command).1.stack) ∧
      (m.perform division command).1.register = m.register := by
  have he := effect_perform division m command
  generalize m.perform division command = p at he h
  cases he with
  | fault hc hs => exact ⟨_, hs, rfl⟩
  | _ => cases h

/-! ## Runs that go on after traps -/

variable {cs : List Command}

theorem height_performAll (division : Division) (m : Machine) (cs : List Command) :
    (m.performAll division cs).stack.height = cs.foldl heightAfter m.stack.height := by
  induction cs generalizing m with
  | nil => rfl
  | cons c cs ih => rw [performAll_cons, ih, height_perform, List.foldl_cons]

/-- Of the words on the stack a command leaves those that the commands behind it do not take: the
words that they and the command leave of the stack before it, and the word that it pushes, unless
they take that. -/
theorem drop_perform (division : Division) (m : Machine) (c : Command) (cs : List Command) :
    (m.perform division c).1.stack.words.drop (taken cs) =
      (if c.pushes ∧ taken cs = 0 then [m.register] else []) ++
        m.stack.words.drop (taken (c :: cs)) := by
  have he := effect_perform division m c
  generalize m.perform division c = p at he
  rw [taken_cons]
  cases he with
  | keep hp hc => simp [hp, hc]
  | push h =>
    subst h
    cases taken cs <;> simp [pushes, Stack.push]
  | empty hc hs => simp [not_pushes_of_consumes hc, hc, Stack.pop?_eq_none_iff.1 hs]
  | pop hc hs => simp [not_pushes_of_consumes hc, hc, Stack.pop?_eq_some_iff.1 hs]
  | fault hc hs => simp [not_pushes_of_consumes hc, hc, Stack.pop?_eq_some_iff.1 hs]

/-- The words on the stack are what is left of those that were there before, and above them those
that the register held at the pushes behind which nothing is taken from below. -/
theorem toList_performAll (division : Division) (m : Machine) (cs : List Command) :
    (m.performAll division cs).stack.toList =
      (m.stack.words.drop (taken cs)).reverse ++
        (openPushes cs).map fun i => (m.performAll division (cs.take i)).register := by
  induction cs generalizing m with
  | nil => exact (List.append_nil _).symm
  | cons c cs ih =>
    have hregisters : ((fun i => (m.performAll division ((c :: cs).take i)).register) ∘ (· + 1)) =
        fun i => ((m.perform division c).1.performAll division (cs.take i)).register := rfl
    rw [performAll_cons, ih, openPushes_cons, List.map_append, List.map_map, hregisters,
      drop_perform, List.reverse_append, List.append_assoc]
    split <;> rfl

end Machine

end StackScript
