/-!
How alike two words are, from the characters that they share at about the same places.
-/

namespace LispScript.Text

/-- Characters with their places. -/
abbrev Placed := List (Char × Nat)

/-- Pairs each character with the first free one that equals it and stands at most `reach` places
further left or right. -/
def pairOff (reach : Nat) : Placed → Placed → List ((Char × Nat) × (Char × Nat))
  | [], _ => []
  | (c, i) :: rest, free =>
      match free.find? fun (d, j) => d == c && i ≤ j + reach && j ≤ i + reach with
      | some partner => ((c, i), partner) :: pairOff reach rest (free.erase partner)
      | none => pairOff reach rest free

/-- Between zero, when no characters pair off, and one, when the words are the same: the mean of the
shares of both words that pair off and the share of the pairs that stand in the same order. -/
def similarity (a b : List Char) : Float :=
  let reach := max a.length b.length / 2 - 1
  let pairs := pairOff reach a.zipIdx b.zipIdx
  let partners := b.zipIdx.filter (pairs.map (·.2)).contains
  let astray := (List.zip pairs partners).countP fun ((left, _), right) => left.1 != right.1
  let paired := Float.ofNat pairs.length
  let ordered := Float.ofNat (pairs.length - astray / 2)
  if pairs.isEmpty then 0
  else (paired / Float.ofNat a.length + paired / Float.ofNat b.length + ordered / paired) / 3

/-- The choice with the name most similar to a word, the last one of equals, unless no name is much
like it. -/
def mostSimilar? (name : α → String) (word : String) (choices : List α) : Option α :=
  let rated := choices.map fun choice => (similarity word.toList (name choice).toList, choice)
  let better (best : Option (Float × α)) (next : Float × α) : Option (Float × α) :=
    match best with
    | some (score, _) => if score ≤ next.1 then some next else best
    | none => if 0.7 < next.1 then some next else none
  (rated.foldl better none).map (·.2)

end LispScript.Text
