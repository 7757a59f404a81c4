/-!
# Generators of random numbers

A `Generator` is whatever draws numbers, one after the other, from a state that a seed determines.
Nothing else is known of it: each number and the state after it depend on the state before and on
nothing else, so the same seed always gives the same numbers. What is drawn may even lie outside of
the numbers between 0 and 1.

The program uses the generator `folding`, which has 64 bits of state. A constant is added to the
state before each draw, and the drawn word is the product of the new state with a scrambled copy of
itself, its two halves folded together.
-/

namespace FiniteAutomata.Random

/-- What is used of a generator with states in `σ`. -/
structure Generator (σ : Type) where
  /-- The state that a seed stands for. -/
  ofSeed : UInt64 → σ
  /-- The number that is drawn in a state, and the state after that. -/
  next : σ → Float × σ

/-- A computation that draws random numbers. -/
abbrev Draw (σ : Type) := StateM σ

section

variable {σ : Type} (G : Generator σ)

/-- Decides with the given probability. -/
def chance (probability : Float) : Draw σ Bool := do
  let x ← (G.next : Draw σ Float)
  return x < probability

/-- Keeps each entry of a list with the given probability, deciding once for each. -/
def choose {α : Type} (probability : Float) : List α → Draw σ (List α)
  | [] => return []
  | x :: xs => do
    let keep ← chance G probability
    let rest ← choose probability xs
    return if keep then x :: rest else rest

end

/-! ## The generator of the program -/

namespace Generator

/-- The lower half of a product of two words, with the upper half folded into it. -/
def foldedProduct (x y : UInt64) : UInt64 :=
  let product := x.toNat * y.toNat
  UInt64.ofNat product ^^^ UInt64.ofNat (product / UInt64.size)

/-- Draws a word. -/
def word : Draw UInt64 UInt64 := fun state =>
  let state := state + 0x2d358dccaa6c78a5
  (foldedProduct state (state ^^^ 0x8bb84b93962eacc9), state)

/-- The number `2 ^ -63`. -/
def unit : Float := Float.ofBits 0x3c00000000000000

/-- The number between 0 and 1 that the upper 63 bits of a word stand for. -/
def fraction (w : UInt64) : Float := (w >>> 1).toFloat * unit

/-- Draws a number that is at least 0 and less than 1, drawing again at most `retries` times after
a word that rounds to 1. -/
def uniformWithin : Nat → Draw UInt64 Float
  | 0 => do return fraction (← word)
  | retries + 1 => do
    let x := fraction (← word)
    if x == 1.0 then uniformWithin retries else return x

/-- Draws numbers that are at least 0 and less than 1. The states repeat themselves after `2 ^ 64`
words, so no more than that many draws are of use. -/
def folding : Generator UInt64 where
  ofSeed seed := seed
  next := uniformWithin UInt64.size

end Generator

end FiniteAutomata.Random
