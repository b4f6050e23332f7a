import StyleBlocks.Compilation.Clearing
import StyleBlocks.Compilation.Debug
import StyleBlocks.Compilation.Exports
import StyleBlocks.Compilation.Inheritance
import StyleBlocks.Compilation.Selectors
import StyleBlocks.Compilation.Settling
import StyleBlocks.Session.Loading
import StyleBlocks.Stylesheet.Printer

/-!
# Compiling a block

The passes in their order: debug statements, taking the block language out, resolutions for
inherited conflicts, output selectors, resolving, and the `:export` rule if it is asked for.
-/

namespace StyleBlocks

def passes (c : Job) (options : Options) : List Pass :=
  [c.debugStatements, clearPass, c.settleInherited, c.compileSelectors, c.settle]
    ++ if options.interoperable then [c.exportClasses] else []

/-- Compiles a stylesheet as that of the block `n`.  In messages it has its own name or, if it has
none, the block's identifier. -/
def compile (g : Catalog) (options : Options) (n : Nat) (sheet : Stylesheet) :
    Compilation × Option BlockError :=
  let c : Job := ⟨g, n, sheet.filename <|> some (g.block n).identifier⟩
  Pass.sequence (passes c options) { sheet := sheet }

/-- Compiles the stylesheet that the block `n` was read from: the compiled stylesheet or an error,
and what was printed. -/
def compileLoaded (g : Catalog) (options : Options) (n : Nat) :
    Except BlockError Stylesheet × Printed :=
  match (g.block n).stylesheet with
  | none => (.error (.unplaced (.noStylesheet (g.block n).name)), {})
  | some sheet =>
    match compile g options n sheet with
    | (k, some e) => (.error e, k.printed)
    | (k, none) => (.ok k.sheet, k.printed)

/-- Makes a stylesheet's text small, or says why it cannot. -/
abbrev Minifier := String → Except String String

namespace Stylesheet

def hasExports (sheet : Stylesheet) : Bool :=
  sheet.nodes.any fun
    | .rule head _ => head.selector == ":export"
    | _ => false

/-- The text of a compiled stylesheet, minified if that is asked for.  Exports are not standard, so
a stylesheet with exports is left as it is. -/
def toCss (sheet : Stylesheet) (minify : Minifier) (options : Options) : Except BlockError String :=
  if options.minify && !sheet.hasExports then
    (minify sheet.render).mapError fun reason => .unplaced (.unminifiable reason)
  else .ok sheet.render

end Stylesheet

namespace Session

def compile (s : Session) (n : Nat) : Except BlockError Stylesheet × Printed :=
  compileLoaded s.catalog s.library.options n

def compilePath (s : Session) (minify : Minifier) (path : String) :
    Except BlockError String × Session :=
  match s.request path with
  | (.error e, s) => (.error e, s)
  | (.ok n, s) => ((s.compile n).1.bind (·.toCss minify s.library.options), s)

end Session

end StyleBlocks
