import StyleBlocks.Stylesheet

/-!
# Printing stylesheets

Each node is written on lines of its own, four spaces further in for each level, and an empty line
stands between the nodes of the top level.
-/

namespace StyleBlocks

def indentation (depth : Nat) : String :=
  String.ofList (List.replicate (4 * depth) ' ')

def AtHead.render (h : AtHead) : String :=
  if h.params.isEmpty then "@" ++ h.name else "@" ++ h.name ++ " " ++ h.params

mutual

def renderNode (depth : Nat) : Node → String
  | .rule head body =>
    indentation depth ++ head.selector ++ " \x7b\n" ++ renderNodes (depth + 1) body
      ++ indentation depth ++ "\x7d\n"
  | .group head body =>
    indentation depth ++ head.render ++ " \x7b\n" ++ renderNodes (depth + 1) body
      ++ indentation depth ++ "\x7d\n"
  | .statement head => indentation depth ++ head.render ++ ";\n"
  | .declaration d => indentation depth ++ d.property ++ ": " ++ d.writtenValue ++ ";\n"
  | .comment text _ => indentation depth ++ "/*" ++ text ++ "*/\n"

def renderNodes (depth : Nat) : List Node → String
  | [] => ""
  | node :: nodes => renderNode depth node ++ renderNodes depth nodes

end

def Rule.render (r : Rule) : String :=
  renderNode 0 r.toNode

def Stylesheet.render (s : Stylesheet) : String :=
  "\n".intercalate (s.nodes.map (renderNode 0))

end StyleBlocks
