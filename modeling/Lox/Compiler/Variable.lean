import Lox.Compiler.Emit

/-! # Scopes and variables

A variable declared in a scope is a local and lives in a slot of the stack frame; one declared outside all
scopes is a global and is found by its name. A local is usable once its initializer is complete. -/

namespace Lox.Compiler

/-- The largest number of locals in scope at once in a function, with the reserved slot. -/
def maxLocals : Nat := 256

/-- Opens a scope. -/
def openScope (c : Compiler) : Compiler := { c with body.depth := c.body.depth + 1 }

/-- Closes a scope and writes a pop for each of its locals. -/
def closeScope (c : Compiler) : Compiler :=
  let depth := c.body.depth - 1
  let (dropped, kept) := c.body.locals.span (Local.isWithin (depth + 1))
  dropped.foldl (fun c _ => c.emit .pop) { c with body.depth := depth, body.locals := kept }

/-- Adds the name of a global to the constants. -/
def nameConstant (c : Compiler) (name : Token) : UInt8 × Compiler := c.addConstant (.string name.lexeme)

/-- The slot of the innermost local with the given name. Reports a mention of a local in its own initializer. -/
def resolve (c : Compiler) (name : Token) : Option UInt8 × Compiler :=
  match Local.resolve? name.lexeme c.body.locals with
  | none => (none, c)
  | some (slot, loc) =>
    (some (UInt8.ofNat slot), if loc.depth.isNone then c.report (.ownInitializer name.lexeme) else c)

/-- Brings a local into scope, not yet usable. -/
def addLocal (c : Compiler) (name : Token) : Compiler :=
  if c.body.locals.length = maxLocals then c.report .tooManyLocals
  else { c with body.locals := ⟨name.lexeme, none⟩ :: c.body.locals }

/-- Declares the name that was just accepted, if a scope is open. A scope declares a name only once. -/
def declare (c : Compiler) : Compiler :=
  if c.body.depth = 0 then c
  else
    let name := c.previous
    let peers := c.body.locals.takeWhile (Local.isWithin c.body.depth)
    let c := if peers.any (·.name = name.lexeme) then c.report (.duplicate name.lexeme) else c
    c.addLocal name

/-- Accepts and declares a name; for a global, gives the constant with its name. -/
def declareName (c : Compiler) (what : Diagnostic.Expectation) : UInt8 × Compiler :=
  let c := (c.expect .identifier what).declare
  if 0 < c.body.depth then (0, c) else c.nameConstant c.previous

/-- Makes the innermost local usable, if a scope is open. -/
def completeLocal (c : Compiler) : Compiler :=
  if c.body.depth = 0 then c
  else match c.body.locals with
    | [] => c
    | loc :: locals => { c with body.locals := { loc with depth := some c.body.depth } :: locals }

/-- Completes the declaration of a variable whose value is on the stack: a local stays there,
    a global takes it. -/
def define (c : Compiler) (global : UInt8) : Compiler :=
  if 0 < c.body.depth then c.completeLocal else c.emit (.defineGlobal global)

end Lox.Compiler
