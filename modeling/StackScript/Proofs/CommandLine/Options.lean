import Mathlib.Algebra.Group.Nat.Defs
import Mathlib.Data.List.Basic
import StackScript.Proofs.CommandLine.Arguments
import StackScript.Proofs.Numeral.Spelling

/-!
# Options of arguments

Arguments make options if they are `Admissible`: each is said as often as it may be, and their values
can be read. The options are then the ones that fit the arguments, `Fits`, and for all others there
are none (`ofArguments_fits`, `exists_ofArguments`). Where an argument stands among the others makes
no difference, as long as the bindings keep their order (`ofArguments_perm`).
-/

set_option autoImplicit false

namespace StackScript.CommandLine

open Numeral (SpellsNat)

/-- Arguments that do not contradict one another and whose values can be read. -/
structure Admissible (args : List Argument) : Prop where
  source_once : (args.filterMap Argument.source?).length ≤ 1
  option_once : ∀ o, o ≠ .binding → (args.filterMap (Argument.value? o)).length ≤ 1
  floor_once : args.count .floor ≤ 1
  one_origin : ∀ text path, .source text ∈ args → .setting .file path ∉ args
  bindings : ∀ v, .setting .binding v ∈ args → ∃ b, Binding.parse v = .ok b
  cache : ∀ v, .setting .cache v ∈ args → ∃ n ≤ 4096, SpellsNat v.toList n
  passes : ∀ v, .setting .passes v ∈ args → ∃ n < 2 ^ 64, SpellsNat v.toList n

/-- The options are those that the arguments name, and the usual ones where they name none. -/
structure Fits (args : List Argument) (o : Options) : Prop where
  source : ∀ text, o.origin = .source text ↔ .source text ∈ args
  file : ∀ path, o.origin = .file path ↔ .setting .file path ∈ args
  bindings : (args.filterMap (Argument.value? .binding)).map Binding.parse = o.bindings.map .ok
  division : o.division = .floor ↔ .floor ∈ args
  cache : ∀ v, .setting .cache v ∈ args → SpellsNat v.toList o.cacheCapacity
  cache_default : (∀ v, .setting .cache v ∉ args) → o.cacheCapacity = 32
  passes : ∀ v, .setting .passes v ∈ args → SpellsNat v.toList o.passes
  passes_default : (∀ v, .setting .passes v ∉ args) → o.passes = 1

namespace Argument

variable {args : List Argument}

theorem mem_sources {text : String} : text ∈ args.filterMap source? ↔ .source text ∈ args := by
  rw [List.mem_filterMap]
  refine ⟨fun h => ?_, fun h => ⟨_, h, rfl⟩⟩
  obtain ⟨a, ha, hs⟩ := h
  cases a <;> cases hs
  exact ha

theorem mem_values {o : ValueOption} {v : String} :
    v ∈ args.filterMap (value? o) ↔ .setting o v ∈ args := by
  rw [List.mem_filterMap]
  refine ⟨fun h => ?_, fun h => ⟨_, h, by simp⟩⟩
  obtain ⟨a, ha, hv⟩ := h
  cases a with
  | source text => cases hv
  | floor => cases hv
  | setting p w =>
    rw [value?_setting] at hv
    split at hv
    · cases hv
      subst p
      exact ha
    · cases hv

end Argument

namespace Options

variable {args args' : List Argument} {o : Options}

/-! ## What is said at most once -/

section

variable {α : Type} {what : String} {l l' : List α}

theorem exists_eq_toList (h : l.length ≤ 1) : ∃ r : Option α, l = r.toList := by
  match l with
  | [] => exact ⟨none, rfl⟩
  | [a] => exact ⟨some a, rfl⟩
  | a :: b :: l => simp at h

theorem atMostOne_perm (h : l'.Perm l) : atMostOne what l' = atMostOne what l := by
  match l with
  | [] => rw [h.eq_nil]
  | [a] => rw [h.eq_singleton]
  | a :: b :: l =>
    match l' with
    | [] => cases h.length_eq
    | [_] => simpa using h.length_eq
    | _ :: _ :: _ => rfl

end

/-! ## Numbers -/

section

variable {name : ValueOption} {most byDefault n : Nat}

theorem readNumber_eq_ok_iff {v : String} (hmost : most < 2 ^ 64) :
    readNumber name most v = .ok n ↔ SpellsNat v.toList n ∧ n ≤ most := by
  have hlo : Numeral.Bounds.unsigned64.lo = 0 := by rfl
  have hhi : Numeral.Bounds.unsigned64.hi = 2 ^ 64 - 1 := by rfl
  unfold readNumber
  refine ⟨fun h => ?_, fun h => ?_⟩
  · split at h
    · rename_i w hw
      obtain ⟨m, hm, rfl, -⟩ := (Numeral.read_eq_ok_iff_spellsNat hlo).1 hw
      rw [Int.toNat_natCast] at h
      split at h
      · cases h
        exact ⟨hm, ‹_›⟩
      · cases h
    · cases h
  · obtain ⟨hs, hle⟩ := h
    have hread : Numeral.read .unsigned64 v.toList = .ok (n : Int) :=
      (Numeral.read_eq_ok_iff_spellsNat hlo).2 ⟨n, hs, rfl, by omega⟩
    simp [hread, hle]

/-- A number that is said at most once is the one that is said, or the usual one. -/
theorem number_eq_ok_iff (hmost : most < 2 ^ 64) : number name most byDefault args = .ok n ↔
    (args.filterMap (Argument.value? name)).length ≤ 1 ∧
      (∀ v, .setting name v ∈ args → SpellsNat v.toList n ∧ n ≤ most) ∧
      ((∀ v, .setting name v ∉ args) → n = byDefault) := by
  simp only [← Argument.mem_values]
  refine ⟨fun h => ?_, fun h => ?_⟩
  · obtain ⟨r, hr, h⟩ := exists_of_bind_eq_ok h
    rw [atMostOne_eq_ok_iff.1 hr]
    cases r with
    | none =>
      cases h
      simp
    | some v =>
      have hv := (readNumber_eq_ok_iff hmost).1 h
      simpa using hv
  · obtain ⟨hlen, hvalue, hdefault⟩ := h
    obtain ⟨r, hr⟩ := exists_eq_toList hlen
    rw [hr] at hvalue hdefault
    rw [number, single, atMostOne_eq_ok_iff.2 hr]
    cases r with
    | none => exact congrArg Except.ok (hdefault (by simp)).symm
    | some v => exact (readNumber_eq_ok_iff hmost).2 (hvalue v (by simp))

theorem exists_number (hmost : most < 2 ^ 64)
    (hlen : (args.filterMap (Argument.value? name)).length ≤ 1)
    (hvalue : ∀ v, .setting name v ∈ args → ∃ n ≤ most, SpellsNat v.toList n) :
    ∃ n, number name most byDefault args = .ok n := by
  simp only [number_eq_ok_iff hmost, ← Argument.mem_values] at hvalue ⊢
  obtain ⟨r, hr⟩ := exists_eq_toList hlen
  rw [hr] at hvalue ⊢
  cases r with
  | none => exact ⟨byDefault, by simp⟩
  | some v =>
    obtain ⟨n, hle, hs⟩ := hvalue v (by simp)
    exact ⟨n, by simp [hle, hs]⟩

end

/-! ## The program text, the rounding and the bindings -/

theorem programOrigin_eq_ok {origin : Origin} (h : programOrigin args = .ok origin) :
    (args.filterMap Argument.source?).length ≤ 1 ∧
      (args.filterMap (Argument.value? .file)).length ≤ 1 ∧
      (∀ text path, .source text ∈ args → .setting .file path ∉ args) ∧
      (∀ text, origin = .source text ↔ .source text ∈ args) ∧
      ∀ path, origin = .file path ↔ .setting .file path ∈ args := by
  simp only [← Argument.mem_sources, ← Argument.mem_values]
  obtain ⟨source, hsource, h⟩ := exists_of_bind_eq_ok h
  obtain ⟨file, hfile, h⟩ := exists_of_bind_eq_ok h
  rw [atMostOne_eq_ok_iff.1 hsource, atMostOne_eq_ok_iff.1 hfile]
  match source, file with
  | none, none =>
    cases h
    simp
  | some text, none =>
    cases h
    simp [eq_comm]
  | none, some path =>
    simp only at h
    split at h
    · cases h
    · cases h
      simp [eq_comm]
  | some _, some _ => cases h

theorem exists_programOrigin (hpath : .setting .file "" ∉ args) (h : Admissible args) :
    ∃ origin, programOrigin args = .ok origin := by
  obtain ⟨source, hsource⟩ := exists_eq_toList h.source_once
  obtain ⟨file, hfile⟩ := exists_eq_toList (h.option_once .file (by decide))
  have hone := h.one_origin
  simp only [← Argument.mem_sources, ← Argument.mem_values, hsource, hfile] at hpath hone
  rw [programOrigin, single, atMostOne_eq_ok_iff.2 hsource, atMostOne_eq_ok_iff.2 hfile]
  cases source with
  | none =>
    cases file with
    | none => exact ⟨_, rfl⟩
    | some path =>
      have hne : path ≠ "" := fun he => hpath (by simp [he])
      exact ⟨_, if_neg hne⟩
  | some text =>
    cases file with
    | none => exact ⟨_, rfl⟩
    | some path => exact absurd (by simp) (hone text path (by simp))

theorem length_floors : (args.filter (· = .floor)).length = args.count .floor := by
  rw [List.count_eq_length_filter]
  rfl

theorem rounding_eq_ok {d : Division} (h : rounding args = .ok d) :
    args.count .floor ≤ 1 ∧ (d = .floor ↔ .floor ∈ args) := by
  have hmem : .floor ∈ args ↔ .floor ∈ args.filter (· = .floor) := by simp
  obtain ⟨r, hr, h⟩ := exists_of_bind_eq_ok h
  have hfloors := atMostOne_eq_ok_iff.1 hr
  rw [← length_floors, hmem, hfloors]
  cases r with
  | none =>
    cases h
    simp
  | some a =>
    cases h
    have ha : a ∈ args.filter (· = .floor) := by simp [hfloors]
    have hfloor : a = .floor := by simpa using (List.mem_filter.1 ha).2
    simp [hfloor]

theorem exists_rounding (h : args.count .floor ≤ 1) : ∃ d, rounding args = .ok d := by
  rw [← length_floors] at h
  obtain ⟨r, hr⟩ := exists_eq_toList h
  rw [rounding, atMostOne_eq_ok_iff.2 hr]
  cases r with
  | none => exact ⟨_, rfl⟩
  | some a => exact ⟨_, rfl⟩

theorem readBinding_eq_ok_iff {v : String} {b : Binding} :
    readBinding v = .ok b ↔ Binding.parse v = .ok b := by
  unfold readBinding
  cases Binding.parse v <;> simp [Except.mapError]

theorem mapM_readBinding_eq_ok_iff {vs : List String} {bs : List Binding} :
    vs.mapM readBinding = .ok bs ↔ vs.map Binding.parse = bs.map .ok := by
  induction vs generalizing bs with
  | nil => cases bs <;> simp [pure, Except.pure]
  | cons v vs ih =>
    rw [List.mapM_cons]
    refine ⟨fun h => ?_, fun h => ?_⟩
    · obtain ⟨b, hb, h⟩ := exists_of_bind_eq_ok h
      obtain ⟨rest, hrest, h⟩ := exists_of_bind_eq_ok h
      cases h
      rw [List.map_cons, List.map_cons, readBinding_eq_ok_iff.1 hb, ih.1 hrest]
    · cases bs with
      | nil => cases h
      | cons b bs =>
        rw [List.map_cons, List.map_cons, List.cons.injEq] at h
        rw [readBinding_eq_ok_iff.2 h.1, ih.2 h.2]
        rfl

theorem exists_map_parse {vs : List String} (h : ∀ v ∈ vs, ∃ b, Binding.parse v = .ok b) :
    ∃ bs : List Binding, vs.map Binding.parse = bs.map .ok := by
  induction vs with
  | nil => exact ⟨[], rfl⟩
  | cons v vs ih =>
    rw [List.forall_mem_cons] at h
    obtain ⟨b, hb⟩ := h.1
    obtain ⟨bs, hbs⟩ := ih h.2
    exact ⟨b :: bs, by rw [List.map_cons, List.map_cons, hb, hbs]⟩

/-! ## All options -/

theorem maxCacheCapacity_lt : maxCacheCapacity < 2 ^ 64 := by decide

theorem maxPasses_lt : UInt64.size - 1 < 2 ^ 64 := by decide

/-- Options come of admissible arguments only, and fit them. -/
theorem ofArguments_fits (h : ofArguments args = .ok o) : Admissible args ∧ Fits args o := by
  obtain ⟨horigin, hbindings, hrounding, hcache, hpasses⟩ := ofArguments_eq_ok_iff.1 h
  obtain ⟨hsource, hfile, hone, hsources, hfiles⟩ := programOrigin_eq_ok horigin
  obtain ⟨hfloor, hdivision⟩ := rounding_eq_ok hrounding
  obtain ⟨hcacheOnce, hcacheValue, hcacheDefault⟩ :=
    (number_eq_ok_iff maxCacheCapacity_lt).1 hcache
  obtain ⟨hpassesOnce, hpassesValue, hpassesDefault⟩ := (number_eq_ok_iff maxPasses_lt).1 hpasses
  have hparse := mapM_readBinding_eq_ok_iff.1 hbindings
  constructor
  · refine ⟨hsource, fun p hp => ?_, hfloor, hone, fun v hv => ?_, fun v hv => ?_, fun v hv => ?_⟩
    · cases p with
      | file => exact hfile
      | binding => exact absurd rfl hp
      | cache => exact hcacheOnce
      | passes => exact hpassesOnce
    · have hmem := List.mem_map_of_mem (f := Binding.parse) (Argument.mem_values.2 hv)
      rw [hparse, List.mem_map] at hmem
      obtain ⟨b, -, hb⟩ := hmem
      exact ⟨b, hb.symm⟩
    · obtain ⟨hs, hle⟩ := hcacheValue v hv
      exact ⟨o.cacheCapacity, hle, hs⟩
    · obtain ⟨hs, hle⟩ := hpassesValue v hv
      exact ⟨o.passes, Nat.lt_of_le_of_lt hle maxPasses_lt, hs⟩
  · exact ⟨hsources, hfiles, hparse, hdivision, fun v hv => (hcacheValue v hv).1, hcacheDefault,
      fun v hv => (hpassesValue v hv).1, hpassesDefault⟩

/-- Admissible arguments make options, if no file is named by the empty text. -/
theorem exists_ofArguments (hpath : .setting .file "" ∉ args) (h : Admissible args) :
    ∃ o, ofArguments args = .ok o := by
  obtain ⟨origin, horigin⟩ := exists_programOrigin hpath h
  obtain ⟨bindings, hbindings⟩ :=
    exists_map_parse fun v hv => h.bindings v (Argument.mem_values.1 hv)
  obtain ⟨division, hdivision⟩ := exists_rounding h.floor_once
  obtain ⟨cacheCapacity, hcache⟩ : ∃ n, number .cache maxCacheCapacity 32 args = .ok n :=
    exists_number maxCacheCapacity_lt (h.option_once .cache (by decide)) h.cache
  obtain ⟨passes, hpasses⟩ : ∃ n, number .passes (UInt64.size - 1) 1 args = .ok n := by
    refine exists_number maxPasses_lt (h.option_once .passes (by decide)) fun v hv => ?_
    obtain ⟨n, hn, hs⟩ := h.passes v hv
    exact ⟨n, Nat.le_sub_one_of_lt hn, hs⟩
  exact ⟨⟨origin, bindings, division, cacheCapacity, passes⟩, ofArguments_eq_ok_iff.2
    ⟨horigin, mapM_readBinding_eq_ok_iff.2 hbindings, hdivision, hcache, hpasses⟩⟩

/-- The same arguments in another order make the same options, or the same error, if the bindings
are in the same order. -/
theorem ofArguments_perm (h : args'.Perm args)
    (hb : args'.filterMap (Argument.value? .binding) = args.filterMap (Argument.value? .binding)) :
    ofArguments args' = ofArguments args := by
  have hsource := h.filterMap Argument.source?
  have hvalue (p : ValueOption) := h.filterMap (Argument.value? p)
  have hfloor := h.filter (· = .floor)
  simp only [ofArguments, programOrigin, rounding, number, single, atMostOne_perm hsource,
    atMostOne_perm (hvalue _), atMostOne_perm hfloor, hb]

end Options

end StackScript.CommandLine
