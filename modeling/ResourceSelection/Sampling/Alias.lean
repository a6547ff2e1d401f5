import ResourceSelection.Random

/-!
# The alias table

A table that draws from a fixed list of weighted items in constant time. Each item of positive
weight has a column of equal width. A column keeps a share of itself, its probability, and gives
the remainder to one other item, its alias; a draw takes a random column and then decides between
the two.

The table is filled by pairing a column that is too light with one that is too heavy, until one
of the sorts runs out. The light column is finished with its own share and the heavy one as its
alias, and the heavy one has given away what the light one lacked. A column that is left over
keeps all of itself.
-/

namespace ResourceSelection

/-- A table for drawing weighted items. -/
structure AliasTable (α ω : Type) where
  /-- The items of positive weight, one to a column. -/
  items : Array α
  /-- The share of its column that an item keeps. -/
  probability : Array ω
  /-- The column that gets the remainder. -/
  aliasOf : Array Nat

namespace AliasTable

variable {α ω : Type} [Scalar ω]

/-- Columns that are being paired: what each still holds, and what is settled about each. -/
structure Columns (ω : Type) where
  /-- What each column holds, one being exactly full. -/
  scaled : Array ω
  /-- The share that a column keeps. -/
  probability : Array ω
  /-- The column that gets the remainder. -/
  aliasOf : Array Nat

/-- Pairs light columns with heavy ones until one of the two lists is empty. -/
def Columns.pair (light heavy : List Nat) (c : Columns ω) : Columns ω :=
  match light, heavy with
  | l :: light, h :: heavy =>
    let kept := c.scaled.getD l 0
    let left := (c.scaled.getD h 0 + kept) - 1
    let next : Columns ω :=
      { scaled := c.scaled.setIfInBounds h left
        probability := c.probability.setIfInBounds l kept
        aliasOf := c.aliasOf.setIfInBounds l h }
    if left < 1 then next.pair (h :: light) heavy else next.pair light (h :: heavy)
  | _, _ => c
termination_by light.length + heavy.length

/-- The table of a list of weighted items, if one of them has positive weight. Items whose weight
is not a positive number are left out. -/
def ofWeights? (weighted : List (α × ω)) : Option (AliasTable α ω) :=
  let kept := weighted.filter fun entry => Scalar.isFinite entry.2 && decide (0 < entry.2)
  let weights := kept.map (·.2)
  let total := Scalar.sum weights
  if kept.isEmpty || !Scalar.isFinite total || decide (total ≤ 0) then none
  else
    let n := kept.length
    let scaled := (weights.map fun w => w * (n : ω) / total).toArray
    let isLight := fun column => decide (scaled.getD column 0 < 1)
    let columns := (List.range n).reverse
    let start : Columns ω :=
      { scaled, probability := Array.replicate n 1, aliasOf := Array.range n }
    let settled := start.pair (columns.filter isLight) (columns.filter fun c => !isLight c)
    some
      { items := (kept.map (·.1)).toArray
        probability := settled.probability
        aliasOf := settled.aliasOf }

/-- The column that a coin decides for: the given one, or its alias. -/
def pick (t : AliasTable α ω) (column : Nat) (coin : ω) : Nat :=
  if coin < t.probability.getD column 0 then column else t.aliasOf.getD column 0

/-- Draws an item: a column, then the coin. -/
def sample (t : AliasTable α ω) (g : Rng) : Option α × Rng :=
  let (column, g) := g.below t.items.size
  let (coin, g) := g.unit ω
  (t.items[t.pick column coin]?, g)

end AliasTable

end ResourceSelection
