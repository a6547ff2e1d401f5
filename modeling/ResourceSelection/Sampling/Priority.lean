import ResourceSelection.Scalar

/-!
# Which priority group to try first

Groups are walked in order of priority. A group's healthy rate times the factor is its score: a
score of one or more wins outright, a score of zero or less loses, and one in between wins with
that probability. A single draw serves the whole walk. After every rejection it is stretched back
over `[0, 1)`, so that the next group sees a fresh uniform value.

An infinite factor makes every positive rate win outright, without a draw.
-/

namespace ResourceSelection

variable {ω γ : Type} [Scalar ω]

/-- The walk from the group with number `index` on. The draw is made when a score first needs it,
and `point` is what is left of it afterwards. -/
def walkPriorities (factor : ω) (draw : γ → ω × γ) :
    List ω → Nat → Option ω → γ → Nat × γ
  | [], _, _, g => (0, g)
  | rate :: rest, index, point, g =>
    let score := rate * factor
    if 1 ≤ score then (index, g)
    else if score ≤ 0 then walkPriorities factor draw rest (index + 1) point g
    else
      let (r, g) := match point with
        | some r => (r, g)
        | none => draw g
      if r < score then (index, g)
      else walkPriorities factor draw rest (index + 1) (some ((r - score) / (1 - score))) g

/-- The index of the group to try first, zero when no group wins, and the generator. -/
def pickPriority (rates : List ω) (factor : ω) (draw : γ → ω × γ) (g : γ) : Nat × γ :=
  if Scalar.isInfinite factor then ((rates.findIdx? fun rate => 0 < rate).getD 0, g)
  else walkPriorities factor draw rates 0 none g

end ResourceSelection
