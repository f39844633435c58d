/-!
# An adaptive cache

A cache of bounded capacity that weighs recency against frequency. Keys that had to leave are
remembered without their values as ghosts. A key that comes back while it is a ghost moves `target`,
the share of the capacity meant for recent keys, toward the list that lost it. Every list has the
key used last in front.
-/

set_option autoImplicit false

namespace StackScript

structure Cache (κ β : Type) where
  capacity : Nat
  target : Nat := 0
  /-- Keys used once since they came in. -/
  recent : List (κ × β) := []
  /-- Keys used again since they came in. -/
  frequent : List (κ × β) := []
  recentGhosts : List κ := []
  frequentGhosts : List κ := []

namespace Cache

variable {κ β : Type}

def empty (capacity : Nat) : Cache κ β := { capacity }

def size (c : Cache κ β) : Nat := c.recent.length + c.frequent.length

def entries (c : Cache κ β) : List (κ × β) := c.recent ++ c.frequent

/-- A full list of `n` elements loses its last one. -/
def pushFront {α : Type} (n : Nat) (a : α) (as : List α) : List α := (a :: as).take n

theorem length_pushFront_le {α : Type} (n : Nat) (a : α) (as : List α) :
    (pushFront n a as).length ≤ n :=
  List.length_take_le n _

theorem mem_of_mem_pushFront {α : Type} {n : Nat} {a x : α} {as : List α}
    (h : x ∈ pushFront n a as) : x = a ∨ x ∈ as :=
  List.mem_cons.1 (List.mem_of_mem_take h)

theorem pushFront_of_lt {α : Type} {n : Nat} {as : List α} (h : as.length < n) (a : α) :
    pushFront n a as = a :: as :=
  List.take_of_length_le h

variable [BEq κ]

/-! ## Looking up -/

/-- Looks a key up. A key that is found is the frequent one used last. -/
def get? (c : Cache κ β) (k : κ) : Option (β × Cache κ β) :=
  match c.recent.lookup k with
  | some v =>
    some (v, { c with
      recent := c.recent.eraseP (·.1 == k)
      frequent := pushFront c.capacity (k, v) c.frequent })
  | none =>
    match c.frequent.lookup k with
    | some v => some (v, { c with frequent := (k, v) :: c.frequent.eraseP (·.1 == k) })
    | none => none

/-! ## Making room -/

def demoteRecent (c : Cache κ β) : Cache κ β :=
  match c.recent.getLast? with
  | none => c
  | some e =>
    { c with
      recent := c.recent.dropLast
      recentGhosts := pushFront c.capacity e.1 c.recentGhosts }

def demoteFrequent (c : Cache κ β) : Cache κ β :=
  match c.frequent.getLast? with
  | none => c
  | some e =>
    { c with
      frequent := c.frequent.dropLast
      frequentGhosts := pushFront c.capacity e.1 c.frequentGhosts }

/-- Turns the key used least lately of one list into a ghost. -/
def demote (c : Cache κ β) (frequentCameBack : Bool) : Cache κ β :=
  if 0 < c.recent.length ∧
      (c.target < c.recent.length ∨ c.recent.length = c.target ∧ frequentCameBack) then
    c.demoteRecent
  else
    c.demoteFrequent

def makeRoom (c : Cache κ β) (frequentCameBack : Bool) : Cache κ β :=
  if c.capacity ≤ c.size then c.demote frequentCameBack else c

/-! ## Taking in -/

/-- How far the target moves when one of `own` ghosts comes back. -/
def stride (own other : Nat) : Nat := if own < other then other / own else 1

def reviveRecent (c : Cache κ β) (k : κ) (v : β) : Cache κ β :=
  let delta := stride c.recentGhosts.length c.frequentGhosts.length
  let c := { c with target := min c.capacity (c.target + delta) }
  let c := c.makeRoom false
  { c with
    recentGhosts := c.recentGhosts.erase k
    frequent := pushFront c.capacity (k, v) c.frequent }

def reviveFrequent (c : Cache κ β) (k : κ) (v : β) : Cache κ β :=
  let delta := stride c.frequentGhosts.length c.recentGhosts.length
  let c := { c with target := c.target - delta }
  let c := c.makeRoom true
  { c with
    frequentGhosts := c.frequentGhosts.erase k
    frequent := pushFront c.capacity (k, v) c.frequent }

/-- A list of ghosts that was longer than its share of the capacity loses its oldest one. -/
def takeNew (c : Cache κ β) (k : κ) (v : β) : Cache κ β :=
  let r := c.makeRoom false
  { r with
    recent := pushFront r.capacity (k, v) r.recent
    recentGhosts :=
      if c.capacity - c.target < c.recentGhosts.length then r.recentGhosts.dropLast
      else r.recentGhosts
    frequentGhosts :=
      if c.target < c.frequentGhosts.length then r.frequentGhosts.dropLast
      else r.frequentGhosts }

/-- Takes in a key that was missed. -/
def put (c : Cache κ β) (k : κ) (v : β) : Cache κ β :=
  if c.recentGhosts.elem k then c.reviveRecent k v
  else if c.frequentGhosts.elem k then c.reviveFrequent k v
  else c.takeNew k v

end Cache

end StackScript
