import KeyTransparency.Power

/-!
# Computing in words

Sizes and positions are sent in words of 64 bits, and a program that checks proofs computes in such
words.  It halts where a number does not fit into a word, where a difference would be negative,
where a list has no member at a place, and where two lists that should go together do not have the
same length.  Everything else is an error that it reports.
-/

namespace KeyTransparency

/-- A computation that may halt, and otherwise ends with an error or a value. -/
abbrev Run (ε : Type) := ExceptT ε Option

namespace Words

variable {ε α β : Type}

def halt : Run ε α := ExceptT.mk none

/-- The computation that ends with a result that is known. -/
def ofResult (result : Except ε α) : Run ε α := ExceptT.mk (some result)

instance : MonadLift (Except ε) (Run ε) := ⟨ofResult⟩

/-- The word for a number, if it fits. -/
def ofNat? (number : Nat) : Option UInt64 :=
  if number < UInt64.size then some (.ofNat number) else none

/-- The difference of two numbers, if it is not negative. -/
def difference? (a b : Nat) : Option Nat := if b ≤ a then some (a - b) else none

def add? (a b : UInt64) : Option UInt64 := ofNat? (a.toNat + b.toNat)

def sub? (a b : UInt64) : Option UInt64 := do ofNat? (← difference? a.toNat b.toNat)

def mul? (a b : UInt64) : Option UInt64 := ofNat? (a.toNat * b.toNat)

/-- A word shifted to the left, if none of its bits get lost. -/
def shiftLeft? (a : UInt64) (level : Nat) : Option UInt64 :=
  if level < 64 then ofNat? (a.toNat <<< level) else none

def shiftRight? (a : UInt64) (level : Nat) : Option UInt64 :=
  if level < 64 then ofNat? (a.toNat >>> level) else none

/-- The number of bits after the highest one, if there is one. -/
def log2? (a : UInt64) : Option Nat := if a = 0 then none else some a.toNat.log2

/-- The member of a list at a place, if there is one. -/
def member? (place : Nat) (list : List α) : Option α := list[place]?

/-- The members of a list before a place, if the list is long enough. -/
def take? (place : Nat) (list : List α) : Option (List α) :=
  if place ≤ list.length then some (list.take place) else none

/-- The members of a list from a place on, if the list is long enough. -/
def drop? (place : Nat) (list : List α) : Option (List α) :=
  if place ≤ list.length then some (list.drop place) else none

/-- The members of two lists side by side, if there are as many of them. -/
def zip? (list : List α) (list' : List β) : Option (List (α × β)) :=
  if list.length = list'.length then some (list.zip list') else none

end Words

end KeyTransparency
