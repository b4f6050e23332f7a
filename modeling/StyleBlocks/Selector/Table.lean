import StyleBlocks.Selector.Parser

/-!
# Selectors that are already read

A table of the selectors of rules, by block and by the rule's number.  An entry holds the text it
was read from and counts only as long as the rule still has that text.
-/

namespace StyleBlocks

structure TableEntry where
  block : Nat
  rule : Nat
  text : String
  selectors : List Selector
deriving DecidableEq, Repr

/-- The rules whose selectors are read, each at most once. -/
structure SelectorTable where
  entries : List TableEntry
deriving DecidableEq, Repr

namespace SelectorTable

def empty : SelectorTable := ⟨[]⟩

def length (c : SelectorTable) : Nat :=
  c.entries.length

def find? (c : SelectorTable) (block rule : Nat) : Option TableEntry :=
  c.entries.find? fun e => e.block == block && e.rule == rule

def drop (c : SelectorTable) (block rule : Nat) : SelectorTable :=
  ⟨c.entries.filter fun e => !(e.block == block && e.rule == rule)⟩

/-- The selectors of a rule.  What is read anew replaces the rule's entry; what cannot be read
leaves the table as it is. -/
def get (c : SelectorTable) (block : Nat) (rule : RuleHead) :
    Except SyntaxError (List Selector) × SelectorTable :=
  let known := (c.find? block rule.id).filter fun e => e.text == rule.selector
  match known with
  | some e => (.ok e.selectors, c)
  | none =>
    match Selector.parseList rule.selector with
    | .error e => (.error e, c)
    | .ok selectors =>
      (.ok selectors,
        ⟨⟨block, rule.id, rule.selector, selectors⟩ :: (c.drop block rule.id).entries⟩)

end SelectorTable

end StyleBlocks
