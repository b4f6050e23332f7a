import StyleBlocks.Property
import StyleBlocks.SortedMap
import StyleBlocks.Stylesheet

/-!
# Contributions of rules

What the rules of a stylesheet say about one object: the declarations of each rule that styles it,
kept apart by the pseudo-element that the rule asks for.
-/

namespace StyleBlocks

structure Contribution where
  rule : Nat
  file : Option String
  declarations : List Declaration
deriving DecidableEq, Repr

/-- The properties of the declarations and all longhands they set. -/
def Contribution.touched (r : Contribution) : List String :=
  sortedSet (r.declarations.flatMap fun d => covered d.property)

/-- The contributions to one object, by pseudo-element. -/
structure Contributions where
  buckets : SortedMap (Option String) (List Contribution)
deriving DecidableEq, Repr

namespace Contributions

def empty : Contributions := ⟨.empty⟩

instance : Inhabited Contributions := ⟨empty⟩

def add (r : Contributions) (pseudo : Option String) (c : Contribution) : Contributions :=
  ⟨r.buckets.alter pseudo fun contributions => contributions.getD [] ++ [c]⟩

def isEmpty (r : Contributions) : Bool :=
  r.buckets.values.all List.isEmpty

def pseudoKeys (r : Contributions) : List (Option String) :=
  r.buckets.keys

def forPseudo (r : Contributions) (pseudo : Option String) : List Contribution :=
  (r.buckets.find? pseudo).getD []

def touched (r : Contributions) (pseudo : Option String) : List String :=
  sortedSet ((r.forPseudo pseudo).flatMap Contribution.touched)

theorem forPseudo_add (r : Contributions) (p q : Option String) (s : Contribution) :
    (r.add p s).forPseudo q = if q = p then r.forPseudo p ++ [s] else r.forPseudo q := by
  simp only [forPseudo, add, SortedMap.alter, SortedMap.find?_insert]
  split <;> rfl

end Contributions

end StyleBlocks
