import ResourceSelection.Scalar

/-!
# Random numbers

One generator serves every random choice of the library: which column of an alias table, where a
newcomer lands, where a weighted scan stops. Its state is a single word that every draw moves on
by an odd constant, so the state comes back only after every word has been visited.

Draws are functions from a generator to a value and the generator after it. What a choice
consumed is therefore part of its answer, and two choices that consume the same numbers leave
equal generators.
-/

namespace ResourceSelection

/-- A generator of random words. -/
structure Rng where
  /-- The word that the next draw starts from. -/
  state : UInt64
deriving DecidableEq, Repr

namespace Rng

/-- The number of different words. -/
def wordCount : Nat := 0x10000000000000000

/-- One random word: the state moves on, and both halves of a product of it are folded together. -/
def next (g : Rng) : UInt64 × Rng :=
  let s := g.state + 0x2d358dccaa6c78a5
  let product := s.toNat * (s ^^^ 0x8bb84b93962eacc9).toNat
  ((product % wordCount).toUInt64 ^^^ (product / wordCount).toUInt64, ⟨s⟩)

/-- A generator seeded by a draw of another, and that other one after the draw. -/
def fork (g : Rng) : Rng × Rng :=
  let (seed, g) := g.next
  (⟨seed⟩, g)

variable {ω : Type} [Scalar ω]

/-- A word as a number: its upper 63 bits as a fraction of their range. -/
def fraction (word : UInt64) : ω := ((word >>> 1).toNat : ω) / ((0x8000000000000000 : Nat) : ω)

/-- Draws until a fraction is below one, at most `fuel` times. -/
def unitWithin : Nat → Rng → ω × Rng
  | 0, g => (0, g)
  | fuel + 1, g =>
    let (word, g) := g.next
    let u : ω := fraction word
    if u < 1 then (u, g) else unitWithin fuel g

/-- A number in `[0, 1)`. A fraction that rounding lifted to one is drawn again. The generator
visits every word before its state returns, so as many tries as there are words are enough. -/
def unit (ω : Type) [Scalar ω] (g : Rng) : ω × Rng := unitWithin wordCount g

/-- Draws until the low half of `word * n` is at least `least`, at most `fuel` times; answers the
high half. -/
def belowWithin (n least : Nat) : Nat → Rng → Nat × Rng
  | 0, g => (0, g)
  | fuel + 1, g =>
    let (word, g) := g.next
    let product := word.toNat * n
    if product % wordCount < least then belowWithin n least fuel g else (product / wordCount, g)

/-- A whole number below `n`, every one equally likely: a word is scaled into the range, and the
words that would make the first few numbers likelier than the rest are drawn again. Of the empty
range nothing is drawn. -/
def below (n : Nat) (g : Rng) : Nat × Rng :=
  if n = 0 then (0, g) else belowWithin n ((wordCount - n) % n) wordCount g

/-- A shuffled list: each place in turn, from the second on, changes contents with a random place
up to itself. -/
def shuffle {α : Type} (xs : List α) (g : Rng) : List α × Rng :=
  let step := fun (acc : Array α × Rng) (i : Nat) =>
    let (j, g) := acc.2.below (i + 1)
    (acc.1.swapIfInBounds i j, g)
  let (ys, g) := (List.range' 1 (xs.length - 1)).foldl step (xs.toArray, g)
  (ys.toList, g)

end Rng

end ResourceSelection
